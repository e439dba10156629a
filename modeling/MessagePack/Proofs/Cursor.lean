import MessagePack.Proofs.Buffering
import MessagePack.Proofs.Config
import MessagePack.Proofs.Reading

/-!
A buffered reader is a cursor over bytes. Whatever it is asked, it answers as a reader does that
has the unread bytes themselves; its buffer never overflows, and it never reads into no room.
-/

namespace MessagePack

namespace Source

/-- Reads that have room for a byte at least lead from one source to the other. -/
inductive Served (source : Source) : Source → Prop
  | start : Served source source
  | read {middle : Source} {room : Nat} (hserved : Served source middle) (hroom : 0 < room) :
      Served source (middle.read room).2

variable {source middle : Source} {room : Nat}

theorem length_deliver {most : Nat} {deliveries rest : List Delivery} {bytes : Bytes}
    (hdeliver : deliver most deliveries = (.ok bytes, rest)) : bytes.length ≤ most := by
  fun_induction deliver most deliveries with
  | case1 => cases hdeliver; exact Nat.zero_le _
  | case2 tail ih => exact ih hdeliver
  | case3 byte tail rest now later hsplit =>
      cases hdeliver
      rw [List.splitAt_eq] at hsplit
      cases hsplit
      exact List.length_take_le _ _
  | case4 => cases hdeliver; exact Nat.zero_le _
  | case5 => cases hdeliver

theorem Served.fetch (hserved : source.Served middle) (hroom : 0 < room) :
    source.Served (middle.fetch room).2 ∧
      ∀ bytes, (middle.fetch room).1 = .ok bytes → bytes.length ≤ room := by
  fun_induction Source.fetch room middle with
  | case1 middle bytes after hread =>
      refine ⟨by simpa only [hread] using hserved.read hroom, fun found hfound => ?_⟩
      cases hfound
      unfold Source.read at hread
      split at hread
      next result rest hdeliver =>
        cases hread
        exact Nat.le_trans (length_deliver hdeliver) (Nat.min_le_left _ _)
  | case2 middle failure after hread _ ih =>
      exact ih (by simpa only [hread] using hserved.read hroom)
  | case3 middle failure after hread _ =>
      exact ⟨by simpa only [hread] using hserved.read hroom, fun found hfound => by cases hfound⟩

theorem Served.collect (hserved : source.Served middle) (n : Nat) (got : Array UInt8) :
    source.Served (middle.collect n got).2 := by
  fun_induction Source.collect n got middle with
  | case1 got middle henough => exact hserved
  | case2 got middle hmore after hfetch =>
      have hafter := (hserved.fetch (show 0 < n - got.size by omega)).1
      rwa [hfetch] at hafter
  | case3 got middle hmore byte bytes after hfetch ih =>
      have hafter := (hserved.fetch (show 0 < n - got.size by omega)).1
      rw [hfetch] at hafter
      exact ih hafter
  | case4 got middle hmore failure after hfetch =>
      have hafter := (hserved.fetch (show 0 < n - got.size by omega)).1
      rwa [hfetch] at hafter

end Source

namespace Buffered

variable {source : Source} {capacity : Nat} {input : Buffered}

/-- The buffer has its size and is not overfull, and no read was without room. -/
structure Sound (source : Source) (capacity : Nat) (input : Buffered) : Prop where
  size : input.capacity = capacity
  within : input.start + input.held.length ≤ capacity
  served : source.Served input.source

theorem Sound.consume (hsound : input.Sound source capacity) {n : Nat}
    (hheld : n ≤ input.held.length) : (input.consume n).Sound source capacity := by
  have hwithin := hsound.within
  refine ⟨hsound.size, ?_, hsound.served⟩
  simp only [Buffered.consume, List.length_drop]
  omega

theorem Sound.refill (hsound : input.Sound source capacity) {n : Nat} (hn : n ≤ capacity)
    (hstart : input.start = 0) : (input.refill n).2.Sound source capacity := by
  have hsize := hsound.size
  have hwithin := hsound.within
  fun_induction Buffered.refill n input with
  | case1 input henough => exact hsound
  | case2 input hmore after hfetch =>
      obtain ⟨hserved, -⟩ := hsound.served.fetch (room_pos (by omega) hstart hmore)
      rw [hfetch] at hserved
      exact ⟨hsize, hwithin, hserved⟩
  | case3 input hmore byte bytes after hfetch ih =>
      obtain ⟨hserved, hlength⟩ := hsound.served.fetch (room_pos (by omega) hstart hmore)
      rw [hfetch] at hserved
      have hroom := hlength (byte :: bytes) (by rw [hfetch])
      rw [room, hsize] at hroom
      have hfull : input.start + (input.held ++ byte :: bytes).length ≤ capacity := by
        rw [List.length_append]
        omega
      exact ih ⟨hsize, hfull, hserved⟩ hstart hsize hfull
  | case4 input hmore failure after hfetch =>
      obtain ⟨hserved, -⟩ := hsound.served.fetch (room_pos (by omega) hstart hmore)
      rw [hfetch] at hserved
      exact ⟨hsize, hwithin, hserved⟩

theorem Sound.fill (hsound : input.Sound source capacity) {n : Nat} (hn : n ≤ capacity) :
    (input.fill n).2.Sound source capacity := by
  have hwithin := hsound.within
  unfold Buffered.fill
  split
  · exact hsound
  · have hmoved : Sound source capacity { input with start := 0 } :=
      ⟨hsound.size, by simp only; omega, hsound.served⟩
    exact hmoved.refill hn rfl

theorem Sound.ahead (hsound : input.Sound source capacity) {n : Nat} (hn : n ≤ capacity) :
    (input.ahead n).2.Sound source capacity ∧
      ∀ bytes, (input.ahead n).1 = .ok bytes → n ≤ (input.ahead n).2.held.length := by
  have hfilled := hsound.fill hn
  unfold Buffered.ahead
  split
  · next filled hfill =>
      rw [hfill] at hfilled
      exact ⟨hfilled, fun _ _ => (fill_ok hfill).1⟩
  · next error filled hfill =>
      rw [hfill] at hfilled
      exact ⟨hfilled, fun _ hnone => by cases hnone⟩

theorem Sound.take (hsound : input.Sound source capacity) (n : Nat) :
    (input.take n).2.Sound source capacity := by
  have hwithin := hsound.within
  have hcollected := hsound.served.collect n (input.held.take n).toArray
  have hrest : input.start + (input.held.take n).length + (input.held.drop n).length ≤
      capacity := by
    rw [List.length_take, List.length_drop]
    omega
  rcases hcollect : input.source.collect n (input.held.take n).toArray with ⟨result, after⟩
  rw [hcollect] at hcollected
  simp only [Buffered.take, hcollect]
  cases result with
  | error failure => exact ⟨hsound.size, hrest, hcollected⟩
  | ok bytes =>
      simp only
      split <;> exact ⟨hsound.size, hrest, hcollected⟩

theorem Sound.skipLeft (hsound : input.Sound source capacity) (hcapacity : 0 < capacity)
    (n left : Nat) : (input.skipLeft n left).2.Sound source capacity := by
  have hsize := hsound.size
  fun_induction Buffered.skipLeft n left input with
  | case1 left input later =>
      rename_i hnone
      exact hsound.consume (Nat.sub_eq_zero_iff_le.mp hnone)
  | case2 left input later hmore after =>
      rename_i hfetch
      obtain ⟨hserved, -⟩ := hsound.served.fetch (show 0 < input.capacity by omega)
      rw [hfetch] at hserved
      exact ⟨hsize, Nat.zero_le _, hserved⟩
  | case3 left input later hmore byte bytes after hfetch =>
      rename_i ih
      obtain ⟨hserved, hlength⟩ := hsound.served.fetch (show 0 < input.capacity by omega)
      have hroom := hlength (byte :: bytes) (by rw [hfetch])
      rw [hfetch] at hserved
      exact ih ⟨hsize, by simp only; omega, hserved⟩ hsize
  | case4 left input later hmore failure after =>
      rename_i hfetch
      obtain ⟨hserved, -⟩ := hsound.served.fetch (show 0 < input.capacity by omega)
      rw [hfetch] at hserved
      exact ⟨hsize, Nat.zero_le _, hserved⟩

/-- A buffer behaves like itself, and stays sound. -/
theorem sound_simulates (hcapacity : Header.maxSize ≤ capacity) :
    ByteInput.Simulates fun input other : Buffered =>
      input = other ∧ input.Sound source capacity where
  size := by
    rintro input other ⟨rfl, -⟩
    rfl
  ahead := by
    rintro n hn input other ⟨rfl, hsound⟩
    exact ⟨rfl, rfl, (hsound.ahead (Nat.le_trans hn hcapacity)).1⟩
  consume := by
    rintro n input after other later bytes hn ⟨rfl, hsound⟩ hahead hother
    obtain ⟨hafter, hheld⟩ := hsound.ahead (Nat.le_trans hn hcapacity)
    cases hahead.symm.trans hother
    have hrun : Buffered.ahead n input = (.ok bytes, after) := hahead
    rw [hrun] at hafter hheld
    exact ⟨rfl, hafter.consume (hheld bytes rfl)⟩
  take := by
    rintro n input other ⟨rfl, hsound⟩
    exact ⟨rfl, rfl, hsound.take n⟩
  skip := by
    rintro n input other ⟨rfl, hsound⟩
    exact ⟨rfl, rfl, hsound.skipLeft (Nat.lt_of_lt_of_le (by decide) hcapacity) n n⟩

end Buffered

namespace Reader

variable {ι κ : Type} [ByteInput ι] [ByteInput κ] {related : ι → κ → Prop}

/-- The answers to calls, one after the other. -/
def run : List Call → Reader ι → List (Except Error Reply) × Reader ι
  | [], reader => ([], reader)
  | call :: calls, reader =>
      let (reply, after) := perform call reader
      let (replies, last) := run calls after
      (reply :: replies, last)

omit [ByteInput κ] in
theorem run_cons (call : Call) (calls : List Call) (reader : Reader ι) :
    reader.run (call :: calls) = ((perform call reader).1 :: ((perform call reader).2.run calls).1,
      ((perform call reader).2.run calls).2) :=
  rfl

omit [ByteInput κ] in
theorem run_append (first second : List Call) (reader : Reader ι) :
    reader.run (first ++ second) = ((reader.run first).1 ++ ((reader.run first).2.run second).1,
      ((reader.run first).2.run second).2) := by
  induction first generalizing reader with
  | nil => rfl
  | cons call calls ih => rw [List.cons_append, run_cons, ih, run_cons, List.cons_append]

theorem perform_agrees (hsimulates : ByteInput.Simulates related) (call : Call) :
    Attempt.Agrees (Latch.Related (State.Related related)) (perform call) (perform call) :=
  Latch.call_agrees (State.perform_agrees hsimulates call)

theorem run_agrees (hsimulates : ByteInput.Simulates related) {reader : Reader ι}
    {other : Reader κ} (hrelated : Latch.Related (State.Related related) reader other)
    (calls : List Call) :
    (reader.run calls).1 = (other.run calls).1 ∧
      Latch.Related (State.Related related) (reader.run calls).2 (other.run calls).2 := by
  induction calls generalizing reader other with
  | nil => exact ⟨rfl, hrelated⟩
  | cons call calls ih =>
      obtain ⟨hreply, hafter⟩ := perform_agrees hsimulates call reader other hrelated
      obtain ⟨hreplies, hlast⟩ := ih hafter
      rw [run_cons, run_cons, hreply, hreplies]
      exact ⟨rfl, hlast⟩

omit [ByteInput ι] [ByteInput κ] in
theorem ofInput_agrees {input : ι} {other : κ} (config : Config) (hrelated : related input other) :
    (∃ error, ofInput config input = .error error ∧ ofInput config other = .error error) ∨
      ∃ reader plain, ofInput config input = .ok reader ∧ ofInput config other = .ok plain ∧
        Latch.Related (State.Related related) reader plain ∧ reader.state.input = input := by
  simp only [ofInput]
  cases config.validate with
  | error error => exact .inl ⟨error, rfl, rfl⟩
  | ok valid =>
      cases requireFeature config.reader .reader with
      | error error => exact .inl ⟨error, rfl, rfl⟩
      | ok enabled => exact .inr ⟨_, _, rfl, rfl, ⟨⟨hrelated, rfl, rfl, rfl⟩, rfl⟩, rfl⟩

/-- The reader that has the unread bytes themselves, buffered or not. -/
def cursor (reader : Reader Buffered) : Reader Bytes where
  state := {
    input := reader.state.input.held ++ reader.state.input.source.content
    nesting := reader.state.nesting
    options := reader.state.options
    maxAlloc := reader.state.maxAlloc }
  error? := reader.error?

/-- The reader stands where the cursor stands. -/
abbrev Follows : Reader Buffered → Reader Bytes → Prop :=
  Latch.Related State.Alike

theorem Follows.cursor_eq {reader : Reader Buffered} {plain : Reader Bytes}
    (hfollows : reader.Follows plain) : reader.cursor = plain := by
  obtain ⟨⟨input, nesting, options, maxAlloc⟩, error?⟩ := plain
  obtain ⟨⟨hinput, hnesting, hoptions, halloc⟩, herror⟩ := hfollows
  simp only [cursor, hinput.content, hnesting, hoptions, halloc, herror]

theorem Follows.run_eq {reader : Reader Buffered} {plain : Reader Bytes}
    (hfollows : reader.Follows plain) (calls : List Call) :
    (reader.run calls).1 = (plain.run calls).1 ∧ (reader.run calls).2.Follows (plain.run calls).2 :=
  run_agrees Buffered.simulates hfollows calls

/-! Calls on a cursor that leave it in place, or in the same place. -/

theorem State.peekTag_same {state after : State Bytes} {tag : Tag}
    (hpeek : State.peekTag state = (.ok tag, after)) : after = state := by
  obtain ⟨⟨found, n⟩, middle, hheader, hpure⟩ := Attempt.bind_eq_ok hpeek
  obtain ⟨rfl, -⟩ := State.header_eq_ok hheader
  cases hpure
  rfl

theorem State.skipBytes_eq (n : Nat) (state : State Bytes) :
    State.skipBytes n state =
      ((State.readBytes n state).1.map fun _ => (), (State.readBytes n state).2) := by
  rcases htrack : State.track (Nesting.bytes n) state with ⟨result, after⟩
  cases result with
  | error error =>
      rw [State.skipBytes, State.readBytes, Attempt.bind_of_error htrack,
        Attempt.bind_of_error htrack]
      rfl
  | ok done =>
      rw [State.skipBytes, State.readBytes, Attempt.bind_of_ok htrack, Attempt.bind_of_ok htrack]
      simp only [State.onInput, Attempt.within, ByteInput.skip, ByteInput.take, Bytes.skipExactly,
        Bytes.takeExactly]
      cases hasAtLeast n after.input with
      | true => rfl
      | false => rfl

theorem perform_skipBytes (n : Nat) (plain : Reader Bytes) :
    (perform (.skipBytes n) plain).2 = (perform (.readBytes n) plain).2 := by
  obtain ⟨state, error?⟩ := plain
  cases error? with
  | some error => rfl
  | none =>
      have hskip := State.skipBytes_eq n state
      rcases hread : State.readBytes n state with ⟨result, after⟩
      rw [hread] at hskip
      cases result with
      | error error =>
          simp only [perform, Latch.call, State.perform, Attempt.bind_of_error hread,
            Attempt.bind_of_error hskip]
      | ok content =>
          simp only [perform, Latch.call, State.perform, Attempt.bind_of_ok hread,
            Attempt.bind_of_ok hskip]
          rfl

/-- Nothing about the readers, and no calls to come, can tell one from the other. -/
def Same (first second : Reader Buffered) : Prop :=
  first.cursor = second.cursor ∧ ∀ calls, (first.run calls).1 = (second.run calls).1

theorem Follows.same {first second : Reader Buffered} {plain : Reader Bytes}
    (hfirst : first.Follows plain) (hsecond : second.Follows plain) : first.Same second :=
  ⟨hfirst.cursor_eq.trans hsecond.cursor_eq.symm, fun calls =>
    (hfirst.run_eq calls).1.trans (hsecond.run_eq calls).1.symm⟩

variable {reader middle : Reader Buffered} {plain : Reader Bytes} {reply : Reply}

theorem Follows.perform_same (hfollows : reader.Follows plain) {call : Call}
    (hsame : ∀ state after reply, State.perform call state = (.ok reply, after) →
      after = (state : State Bytes))
    (hperform : perform call reader = (.ok reply, middle)) : middle.Same reader := by
  obtain ⟨later, hlater, hmiddle⟩ := (perform_agrees Buffered.simulates call).run hfollows hperform
  obtain ⟨hnone, hafter, hstate⟩ := Latch.call_eq_ok hlater
  have hstays : later = plain := by
    obtain ⟨last, error?⟩ := later
    obtain ⟨state, found?⟩ := plain
    obtain rfl : error? = none := hafter
    obtain rfl : found? = none := hnone
    rw [hsame state last reply hstate]
  rw [hstays] at hmiddle
  exact Follows.same hmiddle hfollows

theorem Follows.peekTag_same (hfollows : reader.Follows plain)
    (hpeek : perform .peekTag reader = (.ok reply, middle)) : middle.Same reader := by
  refine hfollows.perform_same (fun state after reply hperform => ?_) hpeek
  obtain ⟨tag, last, hstate, hpure⟩ := Attempt.bind_eq_ok hperform
  cases hpure
  exact State.peekTag_same hstate

theorem Follows.atEnd_same (hfollows : reader.Follows plain)
    (hend : perform .atEnd reader = (.ok reply, middle)) : middle.Same reader := by
  refine hfollows.perform_same (fun state after reply hperform => ?_) hend
  obtain ⟨flag, last, hstate, hpure⟩ := Attempt.bind_eq_ok hperform
  rw [State.atEnd_eq] at hstate
  cases hstate
  cases hpure
  rfl

theorem Follows.skipBytes_same (hfollows : reader.Follows plain) (n : Nat) :
    (perform (.skipBytes n) reader).2.Same (perform (.readBytes n) reader).2 := by
  obtain ⟨-, hskipped⟩ := perform_agrees Buffered.simulates (.skipBytes n) reader plain hfollows
  obtain ⟨-, hread⟩ := perform_agrees Buffered.simulates (.readBytes n) reader plain hfollows
  rw [perform_skipBytes] at hskipped
  exact Follows.same hskipped hread

/-- Whatever is asked of it, a reader over a steady source answers as a reader over the bytes does,
and comes to stand where that one stands. Its buffer is never overfull and no read is without room.
Looking ahead without an error leaves it as it was, and skipping is reading. -/
theorem run_create {source : Source} (hsteady : source.Steady) (config : Config) :
    (∀ calls, ((create config source).map fun reader =>
        ((reader.run calls).1, (reader.run calls).2.cursor)) =
      (ofInput config source.content).map fun plain => plain.run calls) ∧
    ∀ reader calls after, create config source = .ok reader → after = (reader.run calls).2 →
      (after.state.input.start + after.state.input.held.length ≤ after.state.input.capacity ∧
        after.state.input.capacity = max config.bufferSize Header.maxSize) ∧
      source.Served after.state.input.source ∧
      (∀ reply middle, perform .peekTag after = (.ok reply, middle) → middle.Same after) ∧
      (∀ reply middle, perform .atEnd after = (.ok reply, middle) → middle.Same after) ∧
      ∀ n, (perform (.skipBytes n) after).2.Same (perform (.readBytes n) after).2 := by
  rcases ofInput_agrees config (hsteady.holds config.bufferSize) with
    ⟨error, hcreate, hplain⟩ | ⟨reader, plain, hcreate, hplain, hfollows, hinput⟩
  · refine ⟨fun calls => ?_, fun reader calls after hreader => ?_⟩
    · rw [create, hcreate, hplain]
      rfl
    · cases hcreate.symm.trans hreader
  · have hsound : Latch.Related (State.Related fun input other : Buffered => input = other ∧
        input.Sound source (max config.bufferSize Header.maxSize)) reader reader := by
      refine ⟨⟨⟨rfl, ?_⟩, rfl, rfl, rfl⟩, rfl⟩
      rw [hinput]
      exact ⟨rfl, Nat.zero_le _, .start⟩
    refine ⟨fun calls => ?_, fun other calls after hreader hafter => ?_⟩
    · obtain ⟨hreplies, hlast⟩ := Follows.run_eq hfollows calls
      rw [create, hcreate, hplain]
      exact congrArg _ (Prod.ext hreplies (Follows.cursor_eq hlast))
    · cases hcreate.symm.trans hreader
      subst hafter
      obtain ⟨-, hlast⟩ := Follows.run_eq hfollows calls
      obtain ⟨-, hkept, -⟩ :=
        run_agrees (Buffered.sound_simulates (Nat.le_max_right _ _)) hsound calls
      obtain ⟨⟨-, hsize, hwithin, hserved⟩, -⟩ := hkept
      exact ⟨⟨by rw [hsize]; exact hwithin, hsize⟩, hserved,
        fun reply middle => Follows.peekTag_same hlast,
        fun reply middle => Follows.atEnd_same hlast, Follows.skipBytes_same hlast⟩

/-- An array of two, one byte at a time and with an interruption, and then too much asked. -/
theorem run_create_pieces :
    ((create { bufferSize := 1 } {
        deliveries := [.chunk [0x92, 0x01], .failure { kind := .interrupted, text := "again" },
          .chunk [0xa2, 0x68]]
        maxRead? := some 1 }).map fun reader => (reader.run [.peekTag, .expectArray,
          .expectUnsigned 8, .atEnd, .readTag, .skipBytes 2, .finish]).1) =
      .ok [.ok (.tag (.array 2)), .ok (.count 2), .ok (.integer 1), .ok (.bool false),
        .ok (.tag (.str 2)), .error (.truncated 2 1), .error (.truncated 2 1)] := by
  have hsteady : Source.Steady {
      deliveries := [.chunk [0x92, 0x01], .failure { kind := .interrupted, text := "again" },
        .chunk [0xa2, 0x68]]
      maxRead? := some 1 } := by
    refine ⟨fun delivery hmember => ?_, by decide⟩
    simp only [List.mem_cons, List.not_mem_nil, or_false] at hmember
    rcases hmember with rfl | rfl | rfl <;> trivial
  obtain ⟨last, hplain⟩ : ∃ last,
      ((ofInput { bufferSize := 1 } ([0x92, 0x01, 0xa2, 0x68] : Bytes)).map fun plain =>
        plain.run [.peekTag, .expectArray, .expectUnsigned 8, .atEnd, .readTag, .skipBytes 2,
          .finish]) = .ok ([.ok (.tag (.array 2)), .ok (.count 2), .ok (.integer 1),
            .ok (.bool false), .ok (.tag (.str 2)), .error (.truncated 2 1),
            .error (.truncated 2 1)], last) :=
    ⟨_, rfl⟩
  have hsame := ((run_create hsteady { bufferSize := 1 }).1 [.peekTag, .expectArray,
    .expectUnsigned 8, .atEnd, .readTag, .skipBytes 2, .finish]).trans hplain
  rcases hcreate : create { bufferSize := 1 } _ with error | reader
  · rw [hcreate] at hsame
    cases hsame
  · rw [hcreate] at hsame
    exact congrArg _ (Prod.mk.inj (Except.ok.inj hsame)).1

end Reader
end MessagePack
