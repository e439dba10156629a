import MessagePack.Header
import MessagePack.Proofs.Attempt
import MessagePack.Reader.Input

/-!
Input over sources that deliver everything in the end. However the bytes are cut up, and
whatever the size of the buffer, what is looked at and taken is what a byte string would give.
-/

namespace MessagePack

/-- Nothing but bytes and interruptions. -/
def Delivery.Steady : Delivery → Prop
  | .chunk _ => True
  | .pause => False
  | .failure cause => cause.kind = .interrupted

instance : DecidablePred Delivery.Steady
  | .chunk _ => inferInstanceAs (Decidable True)
  | .pause => inferInstanceAs (Decidable False)
  | .failure cause => inferInstanceAs (Decidable (cause.kind = .interrupted))

namespace Source

def contentOf : List Delivery → Bytes
  | [] => []
  | .chunk bytes :: rest => bytes ++ contentOf rest
  | _ :: rest => contentOf rest

def content (source : Source) : Bytes :=
  contentOf source.deliveries

/-- No read fails for good, and none comes back empty before the end. -/
structure Steady (source : Source) : Prop where
  deliveries : ∀ delivery ∈ source.deliveries, delivery.Steady
  reads : source.maxRead? ≠ some 0

instance (source : Source) : Decidable source.Steady :=
  decidable_of_iff ((∀ delivery ∈ source.deliveries, delivery.Steady) ∧ source.maxRead? ≠ some 0)
    ⟨fun hboth => ⟨hboth.1, hboth.2⟩, fun hsteady => ⟨hsteady.deliveries, hsteady.reads⟩⟩

end Source

/-- Besides bytes and interruptions, a live source may have nothing to give now. -/
def Delivery.Passing (live : Bool) : Delivery → Prop
  | .chunk _ => True
  | .pause => live = true
  | .failure cause => cause.kind = .interrupted ∨ (live = true ∧ cause.kind = .wouldBlock)

theorem Delivery.passing_false (delivery : Delivery) :
    delivery.Passing false ↔ delivery.Steady := by
  cases delivery <;> simp [Delivery.Passing, Delivery.Steady]

namespace Source

structure Passing (live : Bool) (source : Source) : Prop where
  deliveries : ∀ delivery ∈ source.deliveries, delivery.Passing live
  reads : source.maxRead? ≠ some 0

variable {source : Source} {live : Bool} {room : Nat}

theorem passing_false : source.Passing false ↔ source.Steady :=
  ⟨fun hpassing => ⟨fun delivery hmember => delivery.passing_false.mp
      (hpassing.deliveries delivery hmember), hpassing.reads⟩,
    fun hsteady => ⟨fun delivery hmember => delivery.passing_false.mpr
      (hsteady.deliveries delivery hmember), hsteady.reads⟩⟩

theorem Steady.passing (hsteady : source.Steady) (live : Bool) :
    source.Passing live where
  deliveries := by
    intro delivery hmember
    have hdelivery := hsteady.deliveries delivery hmember
    cases delivery with
    | chunk bytes => exact hdelivery
    | pause => exact hdelivery.elim
    | failure cause => exact .inl hdelivery
  reads := hsteady.reads

theorem unread_eq (source : Source) : source.unread = source.content.length := by
  rw [unread, content]
  induction source.deliveries with
  | nil => rfl
  | cons delivery rest ih =>
      cases delivery <;> simp [Delivery.totalSize, Delivery.size, contentOf, ih]

/-- What a read comes to: some bytes, the end, nothing for now, or a failure that passes. -/
inductive Passes (live : Bool) (room : Nat) (before : List Delivery) :
    Except IoFailure Bytes → List Delivery → Prop
  | bytes {bytes : Bytes} {after : List Delivery} (hsome : bytes ≠ []) (hroom : bytes.length ≤ room)
      (hcontent : contentOf before = bytes ++ contentOf after)
      (hleft : after.length ≤ before.length) : Passes live room before (.ok bytes) after
  | ended {after : List Delivery} (hbefore : contentOf before = []) (hafter : after = []) :
      Passes live room before (.ok []) after
  | nothing {after : List Delivery} (hlive : live = true)
      (hcontent : contentOf before = contentOf after) (hleft : after.length < before.length) :
      Passes live room before (.ok []) after
  | failure {failure : IoFailure} {after : List Delivery}
      (hpassing : (Delivery.failure failure).Passing live)
      (hcontent : contentOf before = contentOf after) (hleft : after.length < before.length) :
      Passes live room before (.error failure) after

/-- What comes after deliveries without any bytes comes after these as well. -/
theorem Passes.behind {before later after : List Delivery} {result : Except IoFailure Bytes}
    (hpasses : Passes live room later result after)
    (hcontent : contentOf before = contentOf later) (hleft : later.length ≤ before.length) :
    Passes live room before result after := by
  cases hpasses with
  | bytes hsome hroom hbytes hless =>
      exact .bytes hsome hroom (hcontent.trans hbytes) (Nat.le_trans hless hleft)
  | ended hnone hover => exact .ended (hcontent.trans hnone) hover
  | nothing hlive hsame hless =>
      exact .nothing hlive (hcontent.trans hsame) (Nat.lt_of_lt_of_le hless hleft)
  | failure hpassing hsame hless =>
      exact .failure hpassing (hcontent.trans hsame) (Nat.lt_of_lt_of_le hless hleft)

theorem Passes.mono {most : Nat} {before after : List Delivery} {result : Except IoFailure Bytes}
    (hpasses : Passes live most before result after) (hmost : most ≤ room) :
    Passes live room before result after := by
  cases hpasses with
  | bytes hsome hroom hbytes hless => exact .bytes hsome (Nat.le_trans hroom hmost) hbytes hless
  | ended hnone hover => exact .ended hnone hover
  | nothing hlive hsame hless => exact .nothing hlive hsame hless
  | failure hpassing hsame hless => exact .failure hpassing hsame hless

theorem deliver_passes {most : Nat} {deliveries : List Delivery} (hmost : 0 < most)
    (hpassing : ∀ delivery ∈ deliveries, delivery.Passing live) :
    ∃ result rest, deliver most deliveries = (result, rest) ∧
      (∀ delivery ∈ rest, delivery.Passing live) ∧ Passes live most deliveries result rest := by
  fun_induction deliver most deliveries with
  | case1 => exact ⟨_, _, rfl, hpassing, .ended rfl rfl⟩
  | case2 rest ih =>
      obtain ⟨result, last, hdeliver, hlast, hpasses⟩ :=
        ih fun delivery hmember => hpassing delivery (.tail _ hmember)
      exact ⟨result, last, hdeliver, hlast, hpasses.behind rfl (Nat.le_succ _)⟩
  | case3 byte bytes rest now later hsplit =>
      rw [List.splitAt_eq] at hsplit
      cases hsplit
      refine ⟨_, _, rfl, ?_, .bytes ?_ (List.length_take_le _ _) ?_ (Nat.le_refl _)⟩
      · intro delivery hmember
        rcases List.mem_cons.mp hmember with rfl | hmember
        · exact True.intro
        · exact hpassing delivery (.tail _ hmember)
      · intro hnone
        rcases List.take_eq_nil_iff.mp hnone with hzero | hnil
        · omega
        · cases hnil
      · simp only [contentOf]
        rw [← List.append_assoc, List.take_append_drop]
  | case4 rest =>
      exact ⟨_, _, rfl, fun delivery hmember => hpassing delivery (.tail _ hmember),
        .nothing (hpassing .pause (.head _)) rfl (Nat.lt_succ_self _)⟩
  | case5 failure rest =>
      exact ⟨_, _, rfl, fun delivery hmember => hpassing delivery (.tail _ hmember),
        .failure (hpassing (.failure failure) (.head _)) rfl (Nat.lt_succ_self _)⟩

theorem Passing.read (hpassing : source.Passing live) (hroom : 0 < room) :
    ∃ result after, source.read room = (result, after) ∧ after.Passing live ∧
      Passes live room source.deliveries result after.deliveries := by
  have hoffered : 0 < min room (source.maxRead?.getD room) := by
    cases hmost : source.maxRead? with
    | none => simpa using hroom
    | some most =>
        have hpositive : most ≠ 0 := fun hzero => hpassing.reads (by rw [hmost, hzero])
        simp only [Option.getD_some]
        omega
  obtain ⟨result, rest, hdeliver, hrest, hpasses⟩ := deliver_passes hoffered hpassing.deliveries
  refine ⟨result, { source with deliveries := rest, reads := source.reads + 1 }, ?_,
    ⟨hrest, hpassing.reads⟩, hpasses.mono (Nat.min_le_left _ _)⟩
  rw [Source.read, hdeliver]

/-- A read that is repeated after interruptions is not interrupted. -/
theorem Passing.fetch (hpassing : source.Passing live) (hroom : 0 < room) :
    ∃ result after, source.fetch room = (result, after) ∧ after.Passing live ∧
      Passes live room source.deliveries result after.deliveries ∧
      ∀ failure, result = .error failure → failure.kind ≠ .interrupted := by
  obtain ⟨result, after, hread, hafter, hpasses⟩ := hpassing.read hroom
  fun_induction Source.fetch room source generalizing result after with
  | case1 source bytes last hok =>
      rw [hok] at hread
      cases hread
      exact ⟨_, last, rfl, hafter, hpasses, fun _ hsame => by cases hsame⟩
  | case2 source failure middle herror hkind ih =>
      rw [herror] at hread
      cases hread
      obtain ⟨other, later, hlater, hkept, hother⟩ := hafter.read hroom
      obtain ⟨last, final, hfetch, hfinal, hlast, hnever⟩ :=
        ih hafter other later hlater hkept hother
      cases hpasses with
      | failure _ hsame hless =>
          exact ⟨last, final, hfetch, hfinal, hlast.behind hsame (Nat.le_of_lt hless), hnever⟩
  | case3 source failure middle herror hkind =>
      rw [herror] at hread
      cases hread
      refine ⟨_, middle, rfl, hafter, hpasses, fun other hsame => ?_⟩
      cases hsame
      exact hkind

theorem Steady.fetch (hsteady : source.Steady) (hroom : 0 < room) :
    ∃ bytes after, source.fetch room = (.ok bytes, after) ∧ after.Steady ∧
      source.content = bytes ++ after.content ∧ bytes.length ≤ room ∧
      (bytes = [] → source.content = []) := by
  obtain ⟨result, after, hfetch, hafter, hpasses, hnever⟩ :=
    (passing_false.mpr hsteady).fetch hroom
  have hkept := passing_false.mp hafter
  cases hpasses with
  | bytes hsome hlength hcontent _ =>
      exact ⟨_, after, hfetch, hkept, hcontent, hlength, fun hnone => absurd hnone hsome⟩
  | ended hbefore hover =>
      have hnone : after.content = [] := congrArg contentOf hover
      exact ⟨[], after, hfetch, hkept, by rw [hnone]; exact hbefore, Nat.zero_le _,
        fun _ => hbefore⟩
  | nothing hlive => cases hlive
  | failure hpassing =>
      rcases hpassing with hkind | ⟨hlive, -⟩
      · exact absurd hkind (hnever _ rfl)
      · cases hlive

theorem Steady.collect (hsteady : source.Steady) (n : Nat) (got : Array UInt8)
    (hgot : got.size ≤ n) :
    ∃ after, source.collect n got =
        (.ok ((got.toList ++ source.content).take n), after) ∧ after.Steady ∧
      after.content = (got.toList ++ source.content).drop n := by
  fun_induction Source.collect n got source with
  | case1 got source henough =>
      have hsize : got.toList.length = n := by
        rw [Array.length_toList]
        omega
      exact ⟨source, by rw [List.take_left' hsize], hsteady, by rw [List.drop_left' hsize]⟩
  | case2 got source hmore after hfetch =>
      obtain ⟨bytes, last, hbytes, hlast, hcontent, -, hend⟩ :=
        hsteady.fetch (show 0 < n - got.size by omega)
      rw [hbytes] at hfetch
      cases hfetch
      have hlength : got.toList.length ≤ n := by rwa [Array.length_toList]
      rw [hend rfl, List.nil_append] at hcontent
      rw [hend rfl, List.append_nil, List.take_of_length_le hlength,
        List.drop_of_length_le hlength]
      exact ⟨after, rfl, hlast, hcontent.symm⟩
  | case3 got source hmore byte bytes after hfetch ih =>
      obtain ⟨_, last, hbytes, hlast, hcontent, hlength, -⟩ :=
        hsteady.fetch (show 0 < n - got.size by omega)
      rw [hbytes] at hfetch
      cases hfetch
      rw [hcontent, ← List.append_assoc]
      have hsize : (got ++ (byte :: bytes)).size ≤ n := by
        rw [← Array.length_toList, Array.toList_appendList, List.length_append,
          Array.length_toList]
        omega
      have hrest := ih hlast hsize
      rwa [Array.toList_appendList] at hrest
  | case4 got source hmore failure after hfetch =>
      obtain ⟨bytes, last, hbytes, -⟩ := hsteady.fetch (show 0 < n - got.size by omega)
      rw [hbytes] at hfetch
      cases hfetch

end Source
/-- A buffered input that will deliver exactly these bytes. -/
structure Buffered.Holds (input : Buffered) (bytes : Bytes) : Prop where
  steady : input.source.Steady
  content : input.held ++ input.source.content = bytes
  capacity : Header.maxSize ≤ input.capacity

theorem Source.Steady.holds {source : Source} (hsteady : source.Steady) (capacity : Nat) :
    Buffered.Holds { source, capacity := max capacity Header.maxSize } source.content :=
  ⟨hsteady, rfl, Nat.le_max_right _ _⟩

namespace Buffered

variable {input : Buffered} {bytes : Bytes}

theorem size_eq (hholds : input.Holds bytes) : input.size = bytes.length := by
  rw [size, Source.unread_eq, ← hholds.content, List.length_append]

theorem Holds.consume (hholds : input.Holds bytes) {n : Nat} (hheld : n ≤ input.held.length) :
    (input.consume n).Holds (bytes.drop n) where
  steady := hholds.steady
  content := by rw [← hholds.content, List.drop_append_of_le_length hheld]; rfl
  capacity := hholds.capacity

theorem room_pos {n : Nat} (hn : n ≤ input.capacity) (hstart : input.start = 0)
    (hmore : ¬hasAtLeast n input.held = true) : 0 < input.room := by
  rw [hasAtLeast_iff] at hmore
  rw [room, hstart]
  omega

theorem Holds.refill {n : Nat} (hholds : input.Holds bytes) (hn : n ≤ input.capacity)
    (hstart : input.start = 0) :
    ∃ after, after.Holds bytes ∧
      ((n ≤ after.held.length ∧ input.refill n = (.ok (), after)) ∨
        (bytes.length < n ∧
          input.refill n = (.error (.truncated n bytes.length), after))) := by
  fun_induction Buffered.refill n input with
  | case1 input henough =>
      rw [hasAtLeast_iff] at henough
      exact ⟨input, hholds, .inl ⟨henough, rfl⟩⟩
  | case2 input hmore source hfetch =>
      obtain ⟨_, last, hfetched, hlast, hcontent, -, hend⟩ :=
        hholds.steady.fetch (room_pos hn hstart hmore)
      rw [hfetched] at hfetch
      cases hfetch
      have hall : input.held = bytes := by
        rw [← hholds.content, hend rfl, List.append_nil]
      rw [hend rfl, List.nil_append] at hcontent
      refine ⟨{ input with source }, ⟨hlast, ?_, hholds.capacity⟩, .inr ⟨?_, ?_⟩⟩
      · rw [← hcontent, List.append_nil, hall]
      · rw [hasAtLeast_iff, hall] at hmore
        omega
      · rw [hall]
  | case3 input hmore byte more source hfetch ih =>
      obtain ⟨_, last, hfetched, hlast, hcontent, -⟩ :=
        hholds.steady.fetch (room_pos hn hstart hmore)
      rw [hfetched] at hfetch
      cases hfetch
      refine ih ⟨hlast, ?_, hholds.capacity⟩ hn hstart
      rw [← hholds.content, hcontent, List.append_assoc]
  | case4 input hmore failure source hfetch =>
      obtain ⟨_, last, hfetched, -⟩ := hholds.steady.fetch (room_pos hn hstart hmore)
      rw [hfetched] at hfetch
      cases hfetch

theorem Holds.fill {n : Nat} (hholds : input.Holds bytes) (hn : n ≤ Header.maxSize) :
    ∃ after, after.Holds bytes ∧
      ((n ≤ after.held.length ∧ input.fill n = (.ok (), after)) ∨
        (bytes.length < n ∧ input.fill n = (.error (.truncated n bytes.length), after))) := by
  unfold Buffered.fill
  split
  · next henough =>
      rw [hasAtLeast_iff] at henough
      exact ⟨input, hholds, .inl ⟨henough, rfl⟩⟩
  · have hmoved : Holds { input with start := 0 } bytes :=
      ⟨hholds.steady, hholds.content, hholds.capacity⟩
    exact hmoved.refill (Nat.le_trans hn hholds.capacity) rfl

/-- Looking ahead over a header shows what a byte string shows, and keeps it in the buffer. -/
theorem Holds.ahead {n : Nat} (hholds : input.Holds bytes) (hn : n ≤ Header.maxSize) :
    ∃ after, after.Holds bytes ∧
      ((n ≤ after.held.length ∧ input.ahead n = (.ok (bytes.take n), after) ∧
          Bytes.ahead n bytes = (.ok (bytes.take n), bytes)) ∨
        ∃ error, input.ahead n = (.error error, after) ∧
          Bytes.ahead n bytes = (.error error, bytes)) := by
  obtain ⟨after, hafter, ⟨hheld, hfill⟩ | ⟨hshort, hfill⟩⟩ := hholds.fill hn
  · have hbytes : after.held.take n = bytes.take n := by
      rw [← hafter.content, List.take_append_of_le_length hheld]
    have henough : hasAtLeast n bytes = true := by
      rw [hasAtLeast_iff, ← hafter.content, List.length_append]
      omega
    refine ⟨after, hafter, .inl ⟨hheld, ?_, ?_⟩⟩
    · simp only [Buffered.ahead, hfill, hbytes]
    · rw [Bytes.ahead, if_pos henough]
  · have hmissing : ¬hasAtLeast n bytes = true := by
      rw [hasAtLeast_iff]
      omega
    refine ⟨after, hafter, .inr ⟨.truncated n bytes.length, ?_, ?_⟩⟩
    · simp only [Buffered.ahead, hfill]
    · rw [Bytes.ahead, if_neg hmissing]

theorem take_agrees (n : Nat) : Attempt.Agrees Holds (take n) (Bytes.takeExactly n) := by
  intro input bytes hholds
  have hfirst : (input.held.take n).toArray.size ≤ n := List.length_take_le n input.held
  obtain ⟨source, hcollect, hsource, hcontent⟩ :=
    hholds.steady.collect n (input.held.take n).toArray hfirst
  have hmissing : n - (input.held.take n).length = n - input.held.length := by
    rw [List.length_take]
    omega
  have hbytes : (input.held.take n ++ input.source.content).take n = bytes.take n := by
    rw [← hholds.content, List.take_append, List.take_append, hmissing, List.take_take,
      Nat.min_self]
  have hrest : input.held.drop n ++ source.content = bytes.drop n := by
    rw [hcontent, ← hholds.content, List.drop_append, List.drop_append, hmissing,
      List.drop_eq_nil_of_le (List.length_take_le n input.held), List.nil_append]
  rw [hbytes] at hcollect
  by_cases henough : n ≤ bytes.length
  · have hlength : hasAtLeast n (bytes.take n) = true := by
      rw [hasAtLeast_iff, List.length_take]
      omega
    have htaken : hasAtLeast n bytes = true := (hasAtLeast_iff n bytes).mpr henough
    simp only [take, hcollect, hlength, Bytes.takeExactly, htaken, if_true, true_and]
    exact ⟨hsource, hrest, hholds.capacity⟩
  · have hall : bytes.take n = bytes := List.take_of_length_le (by omega)
    have htaken : hasAtLeast n bytes = false := by
      rw [Bool.eq_false_iff, ne_eq, hasAtLeast_iff]
      exact henough
    have hnone : input.held.drop n ++ source.content = [] := by
      rw [hrest, List.drop_eq_nil_of_le (by omega)]
    simp only [take, hcollect, hall, Bytes.takeExactly, htaken, Bool.false_eq_true, if_false,
      true_and]
    exact ⟨hsource, hnone, hholds.capacity⟩

/-- A run of bytes is skipped, or all there are of them. -/
theorem Holds.skipLeft {n left : Nat} (hholds : input.Holds bytes) (hleft : left ≤ n) :
    ∃ after, (left ≤ bytes.length ∧ input.skipLeft n left = (.ok (), after) ∧
        after.Holds (bytes.drop left)) ∨
      (bytes.length < left ∧
        input.skipLeft n left = (.error (.truncated n (n - left + bytes.length)), after) ∧
        after.Holds []) := by
  have hroom : 0 < input.capacity := Nat.lt_of_lt_of_le (by decide) hholds.capacity
  fun_induction Buffered.skipLeft n left input generalizing bytes with
  | case1 left input later =>
      rename_i hnone
      have hheld : left ≤ input.held.length := Nat.sub_eq_zero_iff_le.mp hnone
      have hwithin : left ≤ bytes.length := by
        rw [← hholds.content, List.length_append]
        omega
      exact ⟨_, .inl ⟨hwithin, rfl, hholds.consume hheld⟩⟩
  | case2 left input later hmore source =>
      rename_i hfetch
      obtain ⟨_, last, hfetched, hlast, hcontent, -, hend⟩ := hholds.steady.fetch hroom
      cases hfetched.symm.trans hfetch
      have hall : input.held = bytes := by rw [← hholds.content, hend rfl, List.append_nil]
      rw [hend rfl] at hcontent
      have hcount : n - later = n - left + bytes.length := by
        rw [← hall]
        omega
      rw [hcount]
      exact ⟨_, .inr ⟨by rw [← hall]; omega, rfl, hlast, hcontent.symm, hholds.capacity⟩⟩
  | case3 left input later hmore byte more source hfetch =>
      rename_i ih
      obtain ⟨_, last, hfetched, hlast, hcontent, -⟩ := hholds.steady.fetch hroom
      cases hfetched.symm.trans hfetch
      have hall : bytes = input.held ++ (byte :: more ++ source.content) := by
        rw [← hholds.content, hcontent]
      have hlength : bytes.length =
          input.held.length + (byte :: more ++ source.content).length := by
        rw [hall, List.length_append]
      have hdrop : bytes.drop left = (byte :: more ++ source.content).drop later := by
        rw [hall, List.drop_append, List.drop_eq_nil_of_le (by omega), List.nil_append]
      have hcount : n - left + bytes.length =
          n - later + (byte :: more ++ source.content).length := by omega
      have hheld : Holds { input with source, start := 0, held := byte :: more }
          (byte :: more ++ source.content) := ⟨hlast, rfl, hholds.capacity⟩
      obtain ⟨after, hafter⟩ := ih hheld (by omega) hroom
      rw [hdrop, hcount]
      refine ⟨after, hafter.imp (fun hok => ⟨by omega, hok.2⟩) fun hshort => ⟨by omega, hshort.2⟩⟩
  | case4 left input later hmore failure source =>
      rename_i hfetch
      obtain ⟨_, last, hfetched, -⟩ := hholds.steady.fetch hroom
      cases hfetched.symm.trans hfetch

theorem skip_agrees (n : Nat) : Attempt.Agrees Holds (skip n) (Bytes.skipExactly n) := by
  intro input bytes hholds
  obtain ⟨after, ⟨hwithin, hskip, hafter⟩ | ⟨hshort, hskip, hafter⟩⟩ :=
    hholds.skipLeft (Nat.le_refl n)
  · have hplain : Bytes.skipExactly n bytes = (.ok (), bytes.drop n) :=
      if_pos ((hasAtLeast_iff n bytes).mpr hwithin)
    rw [skip, hskip, hplain]
    exact ⟨rfl, hafter⟩
  · have hplain : Bytes.skipExactly n bytes = (.error (.truncated n bytes.length), []) :=
      if_neg (by rw [hasAtLeast_iff]; omega)
    rw [skip, hskip, hplain, Nat.sub_self, Nat.zero_add]
    exact ⟨rfl, hafter⟩

end Buffered
end MessagePack
