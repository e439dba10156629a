import MessagePack.Proofs.Arrival
import MessagePack.Proofs.Shortage

/-!
Messages that are cut short. Whatever takes a message apart finds out that bytes are missing
from its front part, and no other fault.
-/

namespace MessagePack

/-! Trees. -/

namespace Tree.Progress

variable {options : TagOptions} {limits : Limits} {progress done : Progress} {id : NodeId}
  {depth n : Nat} {missing : Bytes}

/-- With these bytes behind the rest. -/
def followedBy (missing : Bytes) (progress : Progress) : Progress :=
  { progress with rest := progress.rest ++ missing }

theorem advance_followedBy (hadvance : (progress.followedBy missing).advance limits n = .ok done)
    (hn : n ≤ progress.rest.length) :
    ∃ after, progress.advance limits n = .ok after ∧ done = after.followedBy missing := by
  obtain ⟨hsize, rfl⟩ := advance_eq_ok hadvance
  refine ⟨_, advance_ok hsize, ?_⟩
  simp only [followedBy, List.drop_append_of_le_length hn]

theorem require_unlessShort (n : Nat) (progress : Progress) :
    UnlessShort (fun _ => n ≤ progress.rest.length) (progress.require n) := by
  unfold require
  split
  · next henough => exact .reached ((hasAtLeast_iff _ _).mp henough)
  · next hfew =>
      rw [hasAtLeast_iff] at hfew
      exact .short (Nat.lt_of_not_le hfew)

theorem openRun_unlessShort {count : Nat} {children? : Option NodeId}
    (hopen : (progress.followedBy missing).openRun limits depth count = .ok (children?, done)) :
    UnlessShort (fun found => found.1 = children? ∧ done = found.2.followedBy missing)
      (progress.openRun limits depth count) := by
  obtain ⟨hdepth, hcases⟩ := openRun_cases hopen
  rw [openRun, if_neg (Nat.not_lt.mpr hdepth)]
  rcases hcases with ⟨rfl, rfl, rfl⟩ | ⟨hpos, -, hnodes, first, arena, hallocate, rfl, rfl⟩
  · rw [if_pos rfl]
    exact .reached ⟨rfl, rfl⟩
  · have hnodes : ¬limits.maxNodes < progress.arena.count + count := Nat.not_lt.mpr hnodes
    have hallocate : progress.arena.allocate count = .ok (first, arena) := hallocate
    rw [if_neg (Nat.ne_of_gt hpos)]
    by_cases henough : count ≤ progress.rest.length
    · have hall : (!hasAtLeast count progress.rest) = false := by
        rw [(hasAtLeast_iff _ _).mpr henough, Bool.not_true]
      rw [hall, if_neg Bool.false_ne_true, if_neg hnodes, hallocate]
      exact .reached ⟨rfl, rfl⟩
    · have hfew : (!hasAtLeast count progress.rest) = true := by
        rw [Bool.not_eq_true', ← Bool.not_eq_true, hasAtLeast_iff]
        exact henough
      rw [if_pos hfew]
      exact .short (Nat.lt_of_not_le henough)

theorem readElement_unlessShort
    (hread : (progress.followedBy missing).readElement options limits id depth = .ok done) :
    UnlessShort (fun after => done = after.followedBy missing)
      (progress.readElement options limits id depth) := by
  obtain ⟨⟨tag, size⟩, hdecode, hread⟩ := bind_eq_ok hread
  obtain ⟨whole, hadvance, hread⟩ := bind_eq_ok hread
  apply (Header.decode_unlessShort hdecode).bind
  rintro _ ⟨rfl, hsize⟩
  obtain ⟨body, hbody, rfl⟩ := advance_followedBy hadvance hsize
  simp only [hbody, bind, Except.bind]
  cases hlength : tag.payloadLength? with
  | some length =>
      simp only [hlength] at hread ⊢
      obtain ⟨_, hrequire, hread⟩ := bind_eq_ok hread
      obtain ⟨last, hlast, hread⟩ := bind_eq_ok hread
      apply (require_unlessShort length body).bind
      intro _ henough
      obtain ⟨after, hafter, rfl⟩ := advance_followedBy hlast henough
      cases hread
      rw [hafter]
      exact .reached rfl
  | none =>
      cases hcount : tag.childCount? with
      | some count =>
          simp only [hlength, hcount] at hread ⊢
          obtain ⟨⟨children?, last⟩, hopen, hread⟩ := bind_eq_ok hread
          apply (openRun_unlessShort hopen).bind
          rintro ⟨found, after⟩ ⟨rfl, rfl⟩
          cases hread
          exact .reached rfl
      | none =>
          simp only [hlength, hcount] at hread ⊢
          cases hread
          exact .reached rfl

theorem step_unlessShort (hstep : (progress.followedBy missing).step options limits = .ok done) :
    UnlessShort (fun after => done = after.followedBy missing) (progress.step options limits) := by
  unfold step at hstep ⊢
  cases hlevels : progress.levels with
  | nil =>
      rw [show (progress.followedBy missing).levels = [] from hlevels] at hstep
      cases hstep
      exact .reached rfl
  | cons level outer =>
      rw [show (progress.followedBy missing).levels = level :: outer from hlevels] at hstep
      simp only at hstep ⊢
      split
      · next hleft =>
          rw [if_pos hleft] at hstep
          cases hstep
          exact .reached rfl
      · next hleft =>
          rw [if_neg hleft] at hstep
          exact readElement_unlessShort hstep

theorem run_unlessShort (hrun : (progress.followedBy missing).run options limits = .ok done) :
    UnlessShort (fun after => done = after.followedBy missing) (progress.run options limits) := by
  fun_induction run options limits progress with
  | case1 progress hlevels =>
      rw [run, dif_pos (show (progress.followedBy missing).levels = [] from hlevels)] at hrun
      cases hrun
      exact .reached rfl
  | case2 progress hlevels after hstep ih =>
      rw [run, dif_neg (show (progress.followedBy missing).levels ≠ [] from hlevels)] at hrun
      split at hrun
      · next middle hmiddle =>
          have hsame := step_unlessShort hmiddle
          rw [hstep] at hsame
          cases hsame with
          | reached hafter =>
              rw [hafter] at hrun
              exact ih hrun
      · cases hrun
  | case3 progress hlevels error hstep =>
      rw [run, dif_neg (show (progress.followedBy missing).levels ≠ [] from hlevels)] at hrun
      split at hrun
      · next middle hmiddle =>
          have hsame := step_unlessShort hmiddle
          rw [hstep] at hsame
          cases hsame with
          | short hless => exact .short hless
      · cases hrun

end Tree.Progress

/-- The front part of what is parsed as one message is no message, for want of bytes. -/
theorem Tree.parseWithin_short {config : Config} {maxDepth : Nat} {bytes missing : Bytes}
    {tree : Tree} (hmissing : missing ≠ [])
    (hparse : parseWithin config maxDepth (bytes ++ missing) = .ok tree) :
    ∃ needed available, available < needed ∧
      parseWithin config maxDepth bytes = .error (.truncated needed available) := by
  obtain ⟨hvalid, hnode, root, _, done, hinitial, hwhole, hrest, -⟩ :=
    parseFront_eq_ok (parseFront_of_parseWithin hparse)
  obtain ⟨-, arena, hallocate, hreserve, rfl⟩ := Progress.initial_eq_ok hinitial
  by_cases hnone : bytes = []
  · subst hnone
    refine ⟨1, 0, Nat.one_pos, ?_⟩
    rw [parseWithin, parseFront, requireFeature_on hnode, hvalid.validate]
    rfl
  · have hfront : Progress.initial config bytes = .ok (root, .start root arena bytes) := by
      rw [Progress.initial, if_neg hnone, hallocate, hreserve]
      rfl
    have hpart : UnlessShort (fun after => done = after.followedBy missing)
        ((Progress.start root arena bytes).run config.tagOptions (.of config maxDepth)) :=
      Progress.run_unlessShort hwhole
    obtain ⟨needed, available, hless, hshort⟩ := hpart.truncated fun after hafter => by
      rw [hafter] at hrest
      exact hmissing (List.append_eq_nil_iff.mp hrest.symm).2
    refine ⟨needed, available, hless, ?_⟩
    rw [parseWithin, parseFront_of_initial hvalid hnode hfront, hshort]
    rfl

/-! Scans and streams. -/

/-- The end of a message is not found in its front part. -/
theorem messageLength_short {options : TagOptions} {bytes missing : Bytes}
    (hlength : messageLength options (bytes ++ missing) = .ok (some (bytes ++ missing).length))
    (hmissing : missing ≠ []) : messageLength options bytes = .ok none := by
  cases hfront : messageLength options bytes with
  | error error =>
      rw [messageLength_error_append hfront] at hlength
      cases hlength
  | ok found =>
      cases found with
      | none => rfl
      | some n =>
          have hwithin := (messageLength_pos hfront).2
          have hsame := messageLength_append hfront missing
          rw [hlength, List.length_append] at hsame
          cases hsame
          exact absurd (List.eq_nil_of_length_eq_zero (by omega)) hmissing

/-- The only fault of a part of a message is that it is one. -/
theorem Stops.eq_truncated {config : Config} {live : Bool} {maxDepth : Nat} {bytes : Bytes}
    {error : Error} (hstops : Stops config live maxDepth bytes error)
    (hlength : messageLength config.tagOptions bytes = .ok none)
    (hsize : bytes.length ≤ config.maxSize) :
    live = false ∧ error = .truncated (bytes.length + 1) bytes.length := by
  cases hstops with
  | refused hrefused => cases hlength.symm.trans hrefused
  | rejected hfound => cases hlength.symm.trans hfound
  | short _ hover => exact ⟨hover, rfl⟩
  | oversized hbytes _ hbig =>
      rw [← hbytes, List.length_append] at hsize
      omega

namespace Stream.State

variable {config : Config} {live : Bool} {maxDepth : Nat} {bytes : Bytes} {state : State}

theorem Fed.next_short (hroom : 0 < config.bufferSize)
    (hfed : state.Fed config false maxDepth bytes)
    (hlength : messageLength config.tagOptions bytes = .ok none) (hsome : bytes ≠ [])
    (hsize : bytes.length ≤ config.maxSize) :
    state.next.1 = .error (.truncated (bytes.length + 1) bytes.length) := by
  have hgives := hfed.next hroom
  rcases hnext : state.next with ⟨result, after⟩
  rw [hnext] at hgives
  cases hgives with
  | tree hfound => cases hlength.symm.trans hfound
  | waiting | settled => exact absurd (hfed.next_none hroom hnext) hsome
  | stops hstops => rw [(hstops.eq_truncated hlength hsize).2]

theorem cut_exhausted {after : State} (hcut : state.cut = (.ok .exhausted, after)) :
    state.ended = true := by
  unfold cut at hcut
  split at hcut
  split at hcut
  · cases hcut
  · cases hcut
  · obtain ⟨hround, -⟩ := Prod.mk.inj hcut
    split at hround
    · cases hround
    · split at hround
      · cases hround
      · next hended => simpa using hended

theorem Fed.fetch_steady {result : Except IoFailure Bytes} {source : Source}
    (hroom : 0 < config.bufferSize) (hfed : state.Fed config live maxDepth bytes)
    (hsteady : state.source.Steady)
    (hfetch : state.source.fetch state.config.bufferSize = (result, source)) :
    ∃ more, result = .ok more ∧ source.Steady ∧
      state.source.content = more ++ source.content ∧
      (more = [] → state.source.content = []) := by
  obtain ⟨more, last, hbytes, hkept, hcontent, -, hend⟩ :=
    hsteady.fetch (show 0 < state.config.bufferSize by rw [hfed.configured]; exact hroom)
  cases hbytes.symm.trans hfetch
  exact ⟨more, rfl, hkept, hcontent, hend⟩

/-- A live stream keeps a part of a message for later. -/
theorem Fed.next_kept (hroom : 0 < config.bufferSize)
    (hfed : state.Fed config true maxDepth bytes) (hsteady : state.source.Steady)
    (hopen : state.ended = false)
    (hlength : messageLength config.tagOptions bytes = .ok none)
    (hsize : bytes.length ≤ config.maxSize) :
    state.next.1 = .ok none ∧ state.next.2.buffer = bytes := by
  fun_induction State.next state with
  | case1 state error after hcut =>
      cases hfed.cuts hcut with
      | stops hstops => cases (hstops.eq_truncated hlength hsize).1
  | case2 state message after hcut =>
      cases hfed.cuts hcut with
      | message hfound => cases hlength.symm.trans hfound
  | case3 state after hcut => cases hopen.symm.trans (cut_exhausted hcut)
  | case4 state after hcut source hfetch hlive =>
      cases hfed.cuts hcut with
      | wanting hafter =>
          obtain ⟨_, hmore, -, -, hend⟩ := hafter.fetch_steady hroom hsteady hfetch
          cases hmore
          have hcontent := hafter.content
          rw [hend rfl, List.append_nil] at hcontent
          exact ⟨rfl, hcontent⟩
  | case5 state after hcut source hfetch hlive ih =>
      cases hfed.cuts hcut with
      | wanting hafter => exact absurd hafter.alive hlive
  | case6 state after hcut byte more source hfetch ih =>
      cases hfed.cuts hcut with
      | wanting hafter =>
          obtain ⟨_, hmore, hkept, hcontent, -⟩ := hafter.fetch_steady hroom hsteady hfetch
          cases hmore
          have hsource := (hafter.fetch hroom hfetch).1
          exact ih (hafter.fetched hsource hcontent hopen) hkept hopen
  | case7 state after hcut failure source hfetch hblocked
  | case8 state after hcut failure source hfetch hblocked =>
      cases hfed.cuts hcut with
      | wanting hafter =>
          obtain ⟨_, hmore, -⟩ := hafter.fetch_steady hroom hsteady hfetch
          cases hmore

end Stream.State

/-- No part of a message from its start is taken for one, and whatever takes it apart finds that
bytes are missing and nothing else. -/
theorem message_cutShort {config : Config} {bytes : Bytes} {tree : Tree} {cut : Nat}
    (hvalid : config.Valid) (hparse : Tree.parse config bytes = .ok tree)
    (hcut : cut < bytes.length) :
    (∃ needed available, available < needed ∧
      Tree.parse config (bytes.take cut) = .error (.truncated needed available)) ∧
    messageLength config.tagOptions (bytes.take cut) = .ok none ∧
    (∀ whole part : Source, whole.Steady → whole.content = bytes → part.Steady →
      part.content = bytes.take cut → ∀ value, Value.readFrom config whole = .ok value →
      ∃ needed available, available < needed ∧
        Value.readFrom config part = .error (.truncated needed available)) ∧
    ∀ source : Source, source.Steady → source.content = bytes.take cut →
      ∃ stream, Stream.create config source = .ok stream ∧
        (0 < cut → ∃ needed available, available < needed ∧
          (stream.next).1 = .error (.truncated needed available)) ∧
        ((stream.setLive true).next).1 = .ok none ∧
        ((stream.setLive true).next).2.state.buffer = bytes.take cut := by
  have hwhole : bytes.take cut ++ bytes.drop cut = bytes := List.take_append_drop cut bytes
  have hmissing : bytes.drop cut ≠ [] := by
    intro hnone
    have := List.drop_eq_nil_iff.mp hnone
    omega
  have hfound := Tree.messageLength_of_parseWithin hparse
  have hlimit := Tree.length_le_of_parseWithin hparse
  obtain ⟨-, hnode, -⟩ := Tree.parseFront_eq_ok (Tree.parseFront_of_parseWithin hparse)
  rw [Tree.parse] at hparse
  rw [← hwhole] at hparse hfound
  have hlength := messageLength_short hfound hmissing
  have hsize : (bytes.take cut).length ≤ config.maxSize := by
    rw [List.length_take]
    omega
  refine ⟨Tree.parseWithin_short hmissing hparse, hlength, ?_, ?_⟩
  · intro whole part hsteady hcontent hshort hfront value hread
    have hreader := Value.reader_of_readFrom hread
    rw [Value.readFrom_eq hvalid hreader hsteady, hcontent, ← hwhole] at hread
    rw [Value.readFrom_eq hvalid hreader hshort, hfront]
    exact Value.read_short hlength hread
  · intro source hsteady hcontent
    obtain ⟨state, hcreate, rfl, hended, hfed, hlive⟩ := Stream.create_ok hvalid hnode hsteady
    rw [hcontent] at hfed hlive
    have hroom := hvalid.bufferSize_pos
    refine ⟨_, hcreate, fun hpos => ⟨_, (bytes.take cut).length, Nat.lt_succ_self _, ?_⟩, ?_⟩
    · have hsome : bytes.take cut ≠ [] := by
        rw [← List.length_pos_iff, List.length_take]
        omega
      have hshort := hfed.next_short hroom hlength hsome hsize
      rcases hnext : state.next with ⟨result, after⟩
      rw [hnext] at hshort
      cases hshort
      rw [Stream.next, Latch.call_of_error hnext]
    · obtain ⟨hnone, hkept⟩ := hlive.next_kept hroom hsteady hended hlength hsize
      rcases hnext : Stream.State.next { state with live := true } with ⟨result, after⟩
      rw [hnext] at hnone hkept
      cases hnone
      rw [Stream.setLive, Stream.next, Latch.call_of_ok hnext]
      exact ⟨rfl, hkept⟩

/-- An array of two without its last item, which arrives in two pieces. -/
theorem message_cutShort_pair :
    ∃ tree value needed available, Tree.parse {} [0x92, 0x01, 0xc0] = .ok tree ∧
      Value.readFrom {} { deliveries := [.chunk [0x92, 0x01, 0xc0]] } = .ok value ∧
      available < needed ∧
      Value.readFrom {} { deliveries := [.chunk [0x92], .chunk [0x01]] } =
        .error (.truncated needed available) ∧
      ∃ stream, Stream.create {} { deliveries := [.chunk [0x92], .chunk [0x01]] } = .ok stream ∧
        ((stream.setLive true).next).2.state.buffer = [0x92, 0x01] := by
  have hvalid : Config.Valid {} := by decide
  have hwhole : Source.Steady { deliveries := [.chunk [0x92, 0x01, 0xc0]] } := by
    refine ⟨fun delivery hmember => ?_, by decide⟩
    cases List.mem_singleton.mp hmember
    trivial
  obtain ⟨tree, hparse⟩ : ∃ tree, Tree.parse {} [0x92, 0x01, 0xc0] = .ok tree := ⟨_, by cbv⟩
  obtain ⟨value, hread⟩ : ∃ value, Value.readFrom {}
      { deliveries := [.chunk [0x92, 0x01, 0xc0]] } = .ok value := by
    rw [Value.readFrom_eq hvalid rfl hwhole]
    exact ⟨.array [.uint 1, .nil], rfl⟩
  have hpart : Source.Steady { deliveries := [.chunk [0x92], .chunk [0x01]] } := by
    refine ⟨fun delivery hmember => ?_, by decide⟩
    simp only [List.mem_cons, List.not_mem_nil, or_false] at hmember
    rcases hmember with rfl | rfl <;> trivial
  obtain ⟨-, -, hvalue, hstream⟩ := message_cutShort hvalid hparse
    (show 2 < [0x92, 0x01, 0xc0].length by decide)
  obtain ⟨needed, available, hless, hshort⟩ := hvalue _ _ hwhole rfl hpart rfl value hread
  obtain ⟨stream, hcreate, -, -, hkept⟩ := hstream _ hpart rfl
  exact ⟨tree, value, needed, available, hparse, hread, hless, hshort, stream, hcreate, hkept⟩

end MessagePack
