import MessagePack.Proofs.Config
import MessagePack.Proofs.Input
import MessagePack.Proofs.Limits
import MessagePack.Proofs.Round

/-!
Trees out of bytes that arrive in any way. What a stream gives is decided by the bytes alone: the
trees of the messages that can be cut off them, one after the other, and how that ends.
-/

namespace MessagePack

theorem messageLength_pos {options : TagOptions} {bytes : Bytes} {n : Nat}
    (hlength : messageLength options bytes = .ok (some n)) : 0 < n ∧ n ≤ bytes.length := by
  obtain ⟨hwithin, hmessages⟩ := messageLength_eq_some_iff.mp hlength
  obtain ⟨message, hcomplete, hbytes⟩ := Messages.one_iff.mp hmessages
  have hpos := hcomplete.length_pos
  rw [hbytes, List.length_take] at hpos
  omega

/-- A message whose end was not found ends in the bytes that were missing. -/
theorem messageLength_beyond {options : TagOptions} {held later : Bytes} {n : Nat}
    (hheld : messageLength options held = .ok none)
    (hlength : messageLength options (held ++ later) = .ok (some n)) : held.length < n := by
  refine Nat.lt_of_not_le fun hwithin => ?_
  obtain ⟨-, hmessages⟩ := messageLength_eq_some_iff.mp hlength
  rw [List.take_append_of_le_length hwithin] at hmessages
  rw [messageLength_eq_some_iff.mpr ⟨hwithin, hmessages⟩] at hheld
  cases hheld

theorem Tree.messageLength_of_parseWithin {config : Config} {maxDepth : Nat} {bytes : Bytes}
    {tree : Tree} (hparse : parseWithin config maxDepth bytes = .ok tree) :
    messageLength config.tagOptions bytes = .ok (some bytes.length) := by
  obtain ⟨message, hcomplete, rfl, -⟩ := parseWithin_eq_ok hparse
  refine messageLength_eq_some_iff.mpr ⟨Nat.le_refl _, ?_⟩
  rw [List.take_length]
  exact Messages.one_iff.mpr ⟨message, hcomplete, rfl⟩

/-- What a text of messages comes to, up to the first error. -/
structure Harvest where
  trees : List Tree
  /-- The bytes behind the messages. -/
  rest : Bytes
  error? : Option Error

namespace Harvest

/-- There is an error, or what is left is too big, or it is too little for a source at its end. -/
def Fails (config : Config) (live : Bool) (harvest : Harvest) : Prop :=
  harvest.error? ≠ none ∨ config.maxSize < harvest.rest.length ∨
    (live = false ∧ harvest.rest ≠ [])

/-- The error at the end if nothing is too big. -/
def ending (live : Bool) (harvest : Harvest) : Option Error :=
  harvest.error?.or <|
    if live ∨ harvest.rest = [] then
      none
    else
      some (.truncated (harvest.rest.length + 1) harvest.rest.length)

end Harvest

/-- Cut off one message after the other, and parse it. -/
def Tree.harvest (config : Config) (maxDepth : Nat) (bytes : Bytes) : Harvest :=
  match _hlength : messageLength config.tagOptions bytes with
  | .error error => { trees := [], rest := bytes, error? := some error }
  | .ok none => { trees := [], rest := bytes, error? := none }
  | .ok (some n) =>
      match Tree.parseWithin config maxDepth (bytes.take n) with
      | .error error => { trees := [], rest := bytes.drop n, error? := some error }
      | .ok tree =>
          let later := harvest config maxDepth (bytes.drop n)
          { later with trees := tree :: later.trees }
termination_by bytes.length
decreasing_by
  obtain ⟨hpos, hwithin⟩ := messageLength_pos _hlength
  rw [List.length_drop]
  omega

namespace Tree

variable {config : Config} {maxDepth n : Nat} {bytes : Bytes} {error : Error} {tree : Tree}

theorem harvest_refused (hlength : messageLength config.tagOptions bytes = .error error) :
    harvest config maxDepth bytes = { trees := [], rest := bytes, error? := some error } := by
  rw [harvest]
  split <;> next hfound => cases hlength.symm.trans hfound <;> rfl

theorem harvest_none (hlength : messageLength config.tagOptions bytes = .ok none) :
    harvest config maxDepth bytes = { trees := [], rest := bytes, error? := none } := by
  rw [harvest]
  split <;> next hfound => cases hlength.symm.trans hfound <;> rfl

theorem harvest_rejected (hlength : messageLength config.tagOptions bytes = .ok (some n))
    (hparse : parseWithin config maxDepth (bytes.take n) = .error error) :
    harvest config maxDepth bytes =
      { trees := [], rest := bytes.drop n, error? := some error } := by
  rw [harvest]
  split <;> next hfound => cases hlength.symm.trans hfound <;> rw [hparse]

theorem harvest_tree (hlength : messageLength config.tagOptions bytes = .ok (some n))
    (hparse : parseWithin config maxDepth (bytes.take n) = .ok tree) :
    harvest config maxDepth bytes = {
      trees := tree :: (harvest config maxDepth (bytes.drop n)).trees
      rest := (harvest config maxDepth (bytes.drop n)).rest
      error? := (harvest config maxDepth (bytes.drop n)).error? } := by
  rw [harvest]
  split <;> next hfound => cases hlength.symm.trans hfound <;> rw [hparse]

/-- How a parse goes is not a matter of the buffer. -/
theorem parseWithin_bufferSize {size : Nat} (hvalid : config.Valid)
    (hbuffered : Config.Valid { config with bufferSize := size }) :
    parseWithin { config with bufferSize := size } maxDepth bytes =
      parseWithin config maxDepth bytes := by
  rw [parseWithin, parseWithin, parseFront, parseFront, hvalid.validate, hbuffered.validate]
  rfl

theorem harvest_bufferSize {size : Nat} (hvalid : config.Valid)
    (hbuffered : Config.Valid { config with bufferSize := size }) :
    harvest { config with bufferSize := size } maxDepth bytes = harvest config maxDepth bytes := by
  fun_induction harvest config maxDepth bytes with
  | case1 bytes error hlength => exact harvest_refused hlength
  | case2 bytes hlength => exact harvest_none hlength
  | case3 bytes n hlength error hparse =>
      exact harvest_rejected hlength ((parseWithin_bufferSize hvalid hbuffered).trans hparse)
  | case4 bytes n hlength tree hparse later ih =>
      have htree : harvest { config with bufferSize := size } maxDepth bytes = _ :=
        harvest_tree hlength ((parseWithin_bufferSize hvalid hbuffered).trans hparse)
      rw [htree, ih]

end Tree

/-- The error that ends a harvest at its first message, or what a source cut short or a part of
that message beyond the limit makes of it. -/
inductive Stops (config : Config) (live : Bool) (maxDepth : Nat) (bytes : Bytes) : Error → Prop
  | refused {error : Error} (hlength : messageLength config.tagOptions bytes = .error error) :
      Stops config live maxDepth bytes error
  | rejected {n : Nat} {error : Error}
      (hlength : messageLength config.tagOptions bytes = .ok (some n))
      (hparse : Tree.parseWithin config maxDepth (bytes.take n) = .error error) :
      Stops config live maxDepth bytes error
  | short (hlength : messageLength config.tagOptions bytes = .ok none) (hover : live = false)
      (hsome : bytes ≠ []) (hsize : bytes.length ≤ config.maxSize) :
      Stops config live maxDepth bytes (.truncated (bytes.length + 1) bytes.length)
  | oversized {held later : Bytes} (hbytes : held ++ later = bytes)
      (hlength : messageLength config.tagOptions held = .ok none)
      (hsize : config.maxSize < held.length) :
      Stops config live maxDepth bytes (.tooBig held.length config.maxSize)

/-- There is no message to come, and that is no error. -/
structure Settled (config : Config) (live : Bool) (bytes : Bytes) : Prop where
  length : messageLength config.tagOptions bytes = .ok none
  size : bytes.length ≤ config.maxSize
  ended : live = true ∨ bytes = []

section Harvest

variable {config : Config} {live : Bool} {maxDepth : Nat} {bytes : Bytes} {error : Error}

/-- What stops a stream stops the harvest as well, with the same error if nothing is too big. -/
theorem Stops.harvest (hstops : Stops config live maxDepth bytes error) :
    (Tree.harvest config maxDepth bytes).trees = [] ∧
      (Tree.harvest config maxDepth bytes).Fails config live ∧
      (bytes.length ≤ config.maxSize →
        (Tree.harvest config maxDepth bytes).ending live = some error) := by
  cases hstops with
  | refused hlength =>
      rw [Tree.harvest_refused hlength]
      exact ⟨rfl, .inl (Option.some_ne_none _), fun _ => rfl⟩
  | rejected hlength hparse =>
      rw [Tree.harvest_rejected hlength hparse]
      exact ⟨rfl, .inl (Option.some_ne_none _), fun _ => rfl⟩
  | short hlength hover hsome hsize =>
      rw [Tree.harvest_none hlength]
      refine ⟨rfl, .inr (.inr ⟨hover, hsome⟩), fun _ => ?_⟩
      simp only [Harvest.ending, Option.none_or, hover, hsome, Bool.false_eq_true, or_self,
        if_false]
  | @oversized held later hbytes hlength hbig =>
      have hwhole : config.maxSize < bytes.length := by
        rw [← hbytes, List.length_append]
        omega
      refine and_assoc.mp ⟨?_, fun hsize => absurd hwhole (Nat.not_lt.mpr hsize)⟩
      cases hall : messageLength config.tagOptions bytes with
      | error error =>
          rw [Tree.harvest_refused hall]
          exact ⟨rfl, .inl (Option.some_ne_none _)⟩
      | ok found =>
          cases found with
          | none =>
              rw [Tree.harvest_none hall]
              exact ⟨rfl, .inr (.inl hwhole)⟩
          | some n =>
              have hbeyond := messageLength_beyond hlength (by rw [hbytes]; exact hall)
              have hwithin := (messageLength_pos hall).2
              cases hparse : Tree.parseWithin config maxDepth (bytes.take n) with
              | error error =>
                  rw [Tree.harvest_rejected hall hparse]
                  exact ⟨rfl, .inl (Option.some_ne_none _)⟩
              | ok tree =>
                  have hsmall := Tree.length_le_of_parseWithin hparse
                  rw [List.length_take] at hsmall
                  omega

theorem Settled.harvest (hsettled : Settled config live bytes) (maxDepth : Nat) :
    (Tree.harvest config maxDepth bytes).trees = [] ∧
      ¬(Tree.harvest config maxDepth bytes).Fails config live ∧
      (Tree.harvest config maxDepth bytes).ending live = none := by
  rw [Tree.harvest_none hsettled.length]
  refine ⟨rfl, ?_, ?_⟩
  · rintro (herror | hsize | ⟨hover, hsome⟩)
    · exact herror rfl
    · exact absurd hsettled.size (Nat.not_le.mpr hsize)
    · rcases hsettled.ended with hlive | hnone
      · rw [hover] at hlive
        cases hlive
      · exact hsome hnone
  · simp only [Harvest.ending, Option.none_or, hsettled.ended, if_true]

end Harvest

namespace Stream.State

variable {config : Config} {live : Bool} {maxDepth turns : Nat} {bytes : Bytes}
  {state after : State} {error : Error}

/-- These bytes are still to come, the first of them in the buffer. -/
structure Fed (config : Config) (live : Bool) (maxDepth : Nat) (bytes : Bytes) (state : State) :
    Prop where
  configured : state.config = config
  bounded : state.maxDepth = maxDepth
  alive : state.live = live
  source : state.source.Passing live
  ended : state.ended = true → live = false ∧ state.source.content = []
  scanned : Scan.Scanned config.tagOptions state.buffer state.scan
  content : state.buffer ++ state.source.content = bytes

/-- What a round at the buffer comes to. -/
inductive Cuts (config : Config) (live : Bool) (maxDepth : Nat) (bytes : Bytes) (state : State) :
    Except Error Round → State → Prop
  | stops {error : Error} {after : State} (hstops : Stops config live maxDepth bytes error) :
      Cuts config live maxDepth bytes state (.error error) after
  | message {n : Nat} {after : State}
      (hlength : messageLength config.tagOptions bytes = .ok (some n))
      (hafter : after.Fed config live maxDepth (bytes.drop n))
      (hsource : after.source = state.source) :
      Cuts config live maxDepth bytes state (.ok (.message (bytes.take n))) after
  | exhausted {after : State} (hafter : after.Fed config live maxDepth bytes)
      (hsettled : Settled config live bytes) :
      Cuts config live maxDepth bytes state (.ok .exhausted) after
  | wanting {scan : Scan} (hafter : Fed config live maxDepth bytes { state with scan })
      (hlength : messageLength config.tagOptions state.buffer = .ok none)
      (hsize : state.buffer.length ≤ config.maxSize) (hended : state.ended = false) :
      Cuts config live maxDepth bytes state (.ok .wanting) { state with scan }

theorem Fed.cuts (hfed : state.Fed config live maxDepth bytes) {round : Except Error Round}
    (hcut : state.cut = (round, after)) : Cuts config live maxDepth bytes state round after := by
  have hbytes := hfed.content
  have hkept {scan : Scan} (hscanned : scan.Scanned config.tagOptions state.buffer) :
      Fed config live maxDepth bytes { state with scan } :=
    { hfed with scanned := hscanned }
  have hconcludes := cut_concludes hfed.configured hfed.scanned
  rw [hcut] at hconcludes
  cases hconcludes with
  | refused hlength _ =>
      refine .stops (.refused ?_)
      rw [← hbytes]
      exact messageLength_error_append hlength _
  | @message n hlength =>
      have hwithin := (messageLength_pos hlength).2
      have hall := messageLength_append hlength state.source.content
      rw [hbytes] at hall
      have htake : state.buffer.take n = bytes.take n := by
        rw [← hbytes, List.take_append_of_le_length hwithin]
      rw [htake]
      refine .message hall ⟨hfed.configured, hfed.bounded, hfed.alive, hfed.source, hfed.ended,
        Scan.scanned_start _ _, ?_⟩ rfl
      rw [← hbytes, List.drop_append_of_le_length hwithin]
  | oversized hlength _ hsize => exact .stops (.oversized hbytes hlength hsize)
  | short hlength _ hsize hended hsome =>
      obtain ⟨hover, hnone⟩ := hfed.ended hended
      rw [hnone, List.append_nil] at hbytes
      rw [hbytes] at hlength hsize hsome ⊢
      exact .stops (.short hlength hover hsome hsize)
  | exhausted hscanned hended hempty =>
      have hnone : bytes = [] := by
        rw [← hbytes, hempty, (hfed.ended hended).2, List.append_nil]
      refine .exhausted (hkept hscanned) ⟨?_, ?_, .inr hnone⟩
      · rw [hnone]
        exact messageLength_nil _
      · rw [hnone]
        exact Nat.zero_le _
  | wanting hlength hscanned hsize hopen => exact .wanting (hkept hscanned) hlength hsize hopen

/-- What a call for a tree comes to, in so many deliveries. -/
inductive Gives (config : Config) (live : Bool) (maxDepth : Nat) (bytes : Bytes) (turns : Nat) :
    Except Error (Option Tree) → State → Prop
  | tree {n : Nat} {tree : Tree} {after : State}
      (hlength : messageLength config.tagOptions bytes = .ok (some n))
      (hparse : Tree.parseWithin config maxDepth (bytes.take n) = .ok tree)
      (hafter : after.Fed config live maxDepth (bytes.drop n))
      (hturns : after.source.deliveries.length ≤ turns) :
      Gives config live maxDepth bytes turns (.ok (some tree)) after
  | waiting {after : State} (hafter : after.Fed config live maxDepth bytes)
      (hturns : after.source.deliveries.length < turns) :
      Gives config live maxDepth bytes turns (.ok none) after
  | settled {after : State} (hafter : after.Fed config live maxDepth bytes)
      (hsettled : Settled config live bytes) :
      Gives config live maxDepth bytes turns (.ok none) after
  | stops {error : Error} {after : State} (hstops : Stops config live maxDepth bytes error) :
      Gives config live maxDepth bytes turns (.error error) after

theorem Gives.mono {result : Except Error (Option Tree)} {more : Nat}
    (hgives : Gives config live maxDepth bytes turns result after) (hmore : turns ≤ more) :
    Gives config live maxDepth bytes more result after := by
  cases hgives with
  | tree hlength hparse hafter hturns =>
      exact .tree hlength hparse hafter (Nat.le_trans hturns hmore)
  | waiting hafter hturns => exact .waiting hafter (Nat.lt_of_lt_of_le hturns hmore)
  | settled hafter hsettled => exact .settled hafter hsettled
  | stops hstops => exact .stops hstops

theorem Fed.fetch {source : Source} {result : Except IoFailure Bytes}
    (hroom : 0 < config.bufferSize) (hfed : state.Fed config live maxDepth bytes)
    (hfetch : state.source.fetch state.config.bufferSize = (result, source)) :
    source.Passing live ∧
      Source.Passes live state.config.bufferSize state.source.deliveries result source.deliveries ∧
      ∀ failure, result = .error failure → failure.kind ≠ .interrupted := by
  obtain ⟨found, last, hfetched, hsource, hpasses, hnever⟩ := hfed.source.fetch
    (show 0 < state.config.bufferSize by rw [hfed.configured]; exact hroom)
  cases hfetched.symm.trans hfetch
  exact ⟨hsource, hpasses, hnever⟩

/-- Bytes that have been fetched go behind those in the buffer. -/
theorem Fed.fetched {more : Bytes} {source : Source} (hfed : state.Fed config live maxDepth bytes)
    (hsource : source.Passing live) (hcontent : state.source.content = more ++ source.content)
    (hopen : state.ended = false) :
    Fed config live maxDepth bytes { state with source, buffer := state.buffer ++ more } := by
  refine ⟨hfed.configured, hfed.bounded, hfed.alive, hsource, ?_, hfed.scanned.append more, ?_⟩
  · simp only [hopen, Bool.false_eq_true, false_implies]
  · rw [← hfed.content, hcontent, List.append_assoc]

theorem Fed.passed {source : Source} (hfed : state.Fed config live maxDepth bytes)
    (hsource : source.Passing live) (hcontent : state.source.content = source.content) :
    Fed config live maxDepth bytes { state with source } := by
  refine ⟨hfed.configured, hfed.bounded, hfed.alive, hsource, ?_, hfed.scanned, ?_⟩
  · rw [← hcontent]
    exact hfed.ended
  · rw [← hfed.content, hcontent]

theorem Fed.closed (hfed : state.Fed config live maxDepth bytes) (hover : live = false)
    (hcontent : state.source.content = []) :
    Fed config live maxDepth bytes { state with ended := true } :=
  { hfed with ended := fun _ => ⟨hover, hcontent⟩ }

theorem Fed.next (hroom : 0 < config.bufferSize) (hfed : state.Fed config live maxDepth bytes) :
    Gives config live maxDepth bytes state.source.deliveries.length state.next.1 state.next.2 := by
  fun_induction State.next state with
  | case1 state error after hcut =>
      cases hfed.cuts hcut with
      | stops hstops => exact .stops hstops
  | case2 state message after hcut =>
      cases hfed.cuts hcut with
      | message hlength hafter hsource =>
          rw [hafter.configured, hafter.bounded]
          cases hparse : Tree.parseWithin config maxDepth _ with
          | error error => exact .stops (.rejected hlength hparse)
          | ok tree =>
              have hleft := congrArg (fun source => source.deliveries.length) hsource
              exact .tree hlength hparse hafter (Nat.le_of_eq hleft)
  | case3 state after hcut =>
      cases hfed.cuts hcut with
      | exhausted hafter hsettled => exact .settled hafter hsettled
  | case4 state after hcut source hfetch hlive =>
      cases hfed.cuts hcut with
      | wanting hafter hlength hsize hopen =>
          obtain ⟨hsource, hpasses, -⟩ := hafter.fetch hroom hfetch
          cases hpasses with
          | bytes hsome => exact absurd rfl hsome
          | ended hnone hover =>
              have hsame : state.source.content = source.content :=
                hnone.trans (congrArg Source.contentOf hover).symm
              have hall : state.buffer = bytes := by
                rw [← hfed.content, show state.source.content = [] from hnone, List.append_nil]
              rw [hall] at hlength hsize
              exact .settled (hafter.passed hsource hsame)
                ⟨hlength, hsize, .inl (hafter.alive.symm.trans hlive)⟩
          | nothing _ hsame hless => exact .waiting (hafter.passed hsource hsame) hless
  | case5 state after hcut source hfetch hlive ih =>
      cases hfed.cuts hcut with
      | wanting hafter hlength hsize hopen =>
          obtain ⟨hsource, hpasses, -⟩ := hafter.fetch hroom hfetch
          rw [Bool.not_eq_true] at hlive
          have hdead : live = false := hafter.alive.symm.trans hlive
          cases hpasses with
          | bytes hsome => exact absurd rfl hsome
          | ended hnone hover =>
              have hcontent : source.content = [] := congrArg Source.contentOf hover
              have hsame : state.source.content = source.content := hnone.trans hcontent.symm
              exact (ih ((hafter.passed hsource hsame).closed hdead hcontent)).mono
                (by rw [hover]; exact Nat.zero_le _)
          | nothing halive => rw [hdead] at halive; cases halive
  | case6 state after hcut byte more source hfetch ih =>
      cases hfed.cuts hcut with
      | wanting hafter hlength hsize hopen =>
          obtain ⟨hsource, hpasses, -⟩ := hafter.fetch hroom hfetch
          cases hpasses with
          | bytes _ _ hcontent hleft =>
              exact (ih (hafter.fetched hsource hcontent hopen)).mono hleft
  | case7 state after hcut failure source hfetch hblocked =>
      cases hfed.cuts hcut with
      | wanting hafter hlength hsize hopen =>
          obtain ⟨hsource, hpasses, -⟩ := hafter.fetch hroom hfetch
          cases hpasses with
          | failure _ hsame hless =>
              exact .waiting (hafter.passed hsource hsame) hless
  | case8 state after hcut failure source hfetch hblocked =>
      cases hfed.cuts hcut with
      | wanting hafter hlength hsize hopen =>
          obtain ⟨hsource, hpasses, hnever⟩ := hafter.fetch hroom hfetch
          cases hpasses with
          | failure hpassing _ _ =>
              rcases hpassing with hkind | ⟨halive, hkind⟩
              · exact absurd hkind (hnever _ rfl)
              · exact absurd ⟨hkind, hafter.alive.trans halive⟩ hblocked

/-- A source that is not live has nothing more only when all its bytes are used up. -/
theorem Fed.next_none (hroom : 0 < config.bufferSize)
    (hfed : state.Fed config false maxDepth bytes) (hnext : state.next = (.ok none, after)) :
    bytes = [] := by
  fun_induction State.next state with
  | case1 state error middle hcut => cases hnext
  | case2 state message middle hcut =>
      cases hparse : Tree.parseWithin middle.config middle.maxDepth message <;>
        rw [hparse] at hnext <;> cases hnext
  | case3 state middle hcut =>
      cases hfed.cuts hcut with
      | exhausted _ hsettled => simpa using hsettled.ended
  | case4 state middle hcut source hfetch hlive =>
      cases hfed.cuts hcut with
      | wanting hafter => rw [hafter.alive] at hlive; cases hlive
  | case5 state middle hcut source hfetch _ ih =>
      cases hfed.cuts hcut with
      | wanting hafter =>
          obtain ⟨hsource, hpasses, -⟩ := hafter.fetch hroom hfetch
          cases hpasses with
          | bytes hsome => exact absurd rfl hsome
          | ended hnone hover =>
              have hcontent : source.content = [] := congrArg Source.contentOf hover
              have hsame : state.source.content = source.content := hnone.trans hcontent.symm
              exact ih ((hafter.passed hsource hsame).closed rfl hcontent) hnext
          | nothing halive => cases halive
  | case6 state middle hcut byte more source hfetch ih =>
      cases hfed.cuts hcut with
      | wanting hafter _ _ hopen =>
          obtain ⟨hsource, hpasses, -⟩ := hafter.fetch hroom hfetch
          cases hpasses with
          | bytes _ _ hcontent _ => exact ih (hafter.fetched hsource hcontent hopen) hnext
  | case7 state middle hcut failure source hfetch hblocked =>
      cases hfed.cuts hcut with
      | wanting hafter => rw [hafter.alive] at hblocked; cases hblocked.2
  | case8 state middle hcut failure source hfetch hblocked => cases hnext

theorem Fed.next_settled (hroom : 0 < config.bufferSize)
    (hfed : state.Fed config live maxDepth bytes) (hsettled : Settled config live bytes) :
    ∃ last, state.next = (.ok none, last) ∧ last.Fed config live maxDepth bytes := by
  have hgives := hfed.next hroom
  rcases hnext : state.next with ⟨result, last⟩
  rw [hnext] at hgives
  cases hgives with
  | tree hlength => cases hsettled.length.symm.trans hlength
  | waiting hafter | settled hafter => exact ⟨last, rfl, hafter⟩
  | stops hstops => exact absurd hstops.harvest.2.1 (hsettled.harvest maxDepth).2.1

end Stream.State

namespace Stream

/-- So many calls for a tree, up to the first error: the trees, the error, and the stream then. -/
def poll : Nat → Stream → List Tree × Option Error × Stream
  | 0, stream => ([], none, stream)
  | calls + 1, stream =>
      match next stream with
      | (.error error, after) => ([], some error, after)
      | (.ok tree?, after) =>
          let (trees, error?, last) := poll calls after
          (tree?.toList ++ trees, error?, last)

variable {config : Config} {live : Bool} {maxDepth calls : Nat} {bytes : Bytes} {state : State}

theorem poll_ok {tree? : Option Tree} {after : State} (hnext : state.next = (.ok tree?, after))
    (calls : Nat) : poll (calls + 1) { state } =
      (tree?.toList ++ (poll calls { state := after }).1, (poll calls { state := after }).2) := by
  rw [poll, next, Latch.call]
  simp only [hnext]

theorem poll_error {error : Error} {after : State} (hnext : state.next = (.error error, after))
    (calls : Nat) :
    poll (calls + 1) { state } = ([], some error, { state := after, error? := some error }) := by
  rw [poll, next, Latch.call]
  simp only [hnext]

/-- Without an error, nothing is lost of the bytes, nor out of order. -/
theorem poll_kept (hroom : 0 < config.bufferSize) (hfed : state.Fed config live maxDepth bytes)
    {trees : List Tree} {after : Stream} (hpoll : poll calls { state } = (trees, none, after)) :
    ∃ last left, after = { state := last } ∧ last.Fed config live maxDepth left ∧
      trees.flatMap (fun tree => tree.input.toList) ++ left = bytes := by
  induction calls generalizing state bytes trees with
  | zero =>
      cases hpoll
      exact ⟨state, bytes, rfl, hfed, rfl⟩
  | succ calls ih =>
      have hgives := hfed.next hroom
      rcases hnext : state.next with ⟨result, middle⟩
      rw [hnext] at hgives
      cases hgives with
      | @tree n tree _ hlength hparse hafter hturns =>
          rw [poll_ok hnext] at hpoll
          obtain ⟨rfl, hrest⟩ := Prod.mk.inj hpoll
          obtain ⟨last, left, hlast, hkept, hbytes⟩ := ih hafter (Prod.ext rfl hrest)
          obtain ⟨-, -, -, hinput, -⟩ := Tree.parseWithin_eq_ok hparse
          refine ⟨last, left, hlast, hkept, ?_⟩
          rw [Option.toList_some, List.singleton_append, List.flatMap_cons, List.append_assoc,
            hbytes, hinput, List.take_append_drop]
      | waiting hafter hturns | settled hafter hsettled =>
          rw [poll_ok hnext] at hpoll
          exact ih hafter hpoll
      | stops hstops =>
          rw [poll_error hnext] at hpoll
          cases hpoll

/-- Where there is no message to come, there are no trees and no error. -/
theorem poll_settled (hroom : 0 < config.bufferSize) (hfed : state.Fed config live maxDepth bytes)
    (hsettled : Settled config live bytes) (calls : Nat) :
    ∃ last, poll calls { state } = ([], none, { state := last }) ∧
      last.Fed config live maxDepth bytes := by
  induction calls generalizing state with
  | zero => exact ⟨state, rfl, hfed⟩
  | succ calls ih =>
      obtain ⟨middle, hnext, hmiddle⟩ := hfed.next_settled hroom hsettled
      obtain ⟨last, hpoll, hlast⟩ := ih hmiddle
      refine ⟨last, ?_, hlast⟩
      rw [poll_ok hnext, hpoll]
      rfl

/-- Calls enough to come to the end give what the bytes come to. -/
theorem poll_harvest (hroom : 0 < config.bufferSize) (hfed : state.Fed config live maxDepth bytes)
    (hcalls : bytes.length + state.source.deliveries.length < calls) :
    ∃ error? after, poll calls { state } =
        ((Tree.harvest config maxDepth bytes).trees, error?, after) ∧
      (error? ≠ none ↔ (Tree.harvest config maxDepth bytes).Fails config live) ∧
      (bytes.length ≤ config.maxSize →
        error? = (Tree.harvest config maxDepth bytes).ending live) ∧
      (error? = none → ∃ last, next after = (.ok none, { state := last })) := by
  induction calls generalizing state bytes with
  | zero => exact absurd hcalls (Nat.not_lt_zero _)
  | succ calls ih =>
      have hgives := hfed.next hroom
      rcases hnext : state.next with ⟨result, middle⟩
      rw [hnext] at hgives
      dsimp only at hgives
      cases hgives with
      | @tree n tree _ hlength hparse hafter hturns =>
          obtain ⟨hpos, hwithin⟩ := messageLength_pos hlength
          have hless : (bytes.drop n).length + middle.source.deliveries.length < calls := by
            rw [List.length_drop]
            omega
          obtain ⟨error?, after, hpoll, hfails, hending, hlast⟩ := ih hafter hless
          rw [Tree.harvest_tree hlength hparse, poll_ok hnext, hpoll]
          refine ⟨error?, after, rfl, hfails, fun hsize => hending ?_, hlast⟩
          rw [List.length_drop]
          omega
      | waiting hafter hturns =>
          rw [poll_ok hnext]
          exact ih hafter (by omega)
      | settled hafter hsettled =>
          obtain ⟨last, hpoll, hkept⟩ := poll_settled hroom hafter hsettled calls
          obtain ⟨final, hfinal, -⟩ := hkept.next_settled hroom hsettled
          obtain ⟨htrees, hfails, hending⟩ := hsettled.harvest maxDepth
          rw [poll_ok hnext, hpoll, htrees, hending]
          refine ⟨none, { state := last }, rfl, ?_, fun _ => rfl, fun _ => ⟨final, ?_⟩⟩
          · exact ⟨fun hnone => absurd rfl hnone, fun hsome => absurd hsome hfails⟩
          · rw [next, Latch.call, hfinal]
      | @stops error _ hstops =>
          obtain ⟨htrees, hfails, hending⟩ := hstops.harvest
          rw [poll_error hnext, htrees]
          exact ⟨some error, _, rfl, ⟨fun _ => hfails, fun _ => Option.some_ne_none _⟩,
            fun hsize => (hending hsize).symm, fun hnone => by cases hnone⟩

theorem create_fed {source : Source} (hvalid : config.Valid) (hnode : config.node = true)
    (hsource : source.Passing live) (hcontent : source.content = bytes) (maxDepth : Nat) :
    ∃ stream : Stream, Stream.create config source = .ok stream ∧
      ∃ state, (stream.setLive live).setMaxDepth maxDepth = { state } ∧
        state.source = source ∧ state.Fed config live maxDepth bytes := by
  refine ⟨{ state := { source, config, maxDepth := config.maxDepth } }, ?_, _, rfl, rfl, rfl, rfl,
    rfl, hsource, fun hended => (by cases hended), Scan.scanned_start _ _, hcontent⟩
  rw [Stream.create, hvalid.validate, requireFeature_on hnode]
  rfl

/-- A fresh stream has everything still to come, live or not. -/
theorem create_ok {source : Source} (hvalid : config.Valid)
    (hnode : config.node = true) (hsteady : source.Steady) :
    ∃ state, Stream.create config source = .ok { state } ∧ state.source = source ∧
      state.ended = false ∧
      State.Fed config false config.maxDepth source.content state ∧
      State.Fed config true config.maxDepth source.content { state with live := true } := by
  have hfed (live : Bool) : State.Fed config live config.maxDepth source.content
      { source, config, maxDepth := config.maxDepth, live } := {
    configured := rfl
    bounded := rfl
    alive := rfl
    source := hsteady.passing live
    ended := fun hended => nomatch hended
    scanned := Scan.scanned_start _ _
    content := rfl }
  refine ⟨{ source, config, maxDepth := config.maxDepth }, ?_, rfl, rfl, hfed false, hfed true⟩
  rw [Stream.create, hvalid.validate, requireFeature_on hnode]
  rfl

/-- Whatever the pieces in which the bytes arrive, and whatever the buffer, the trees, the end and,
if nothing is too big, the error are those that the bytes themselves come to; and up to an error,
the bytes are those of the trees, then the buffered ones, then those that are still to come. -/
theorem poll_arrival (hvalid : config.Valid) (hnode : config.node = true)
    (live : Bool) (maxDepth : Nat) (bytes : Bytes) {size : Nat} (hsize : 0 < size)
    {source : Source} (hsource : source.Passing live) (hcontent : source.content = bytes) :
    ∃ stream : Stream, Stream.create { config with bufferSize := size } source = .ok stream ∧
      (∀ calls, bytes.length + source.deliveries.length < calls →
        ∃ error? after, poll calls ((stream.setLive live).setMaxDepth maxDepth) =
            ((Tree.harvest config maxDepth bytes).trees, error?, after) ∧
          (error? ≠ none ↔ (Tree.harvest config maxDepth bytes).Fails config live) ∧
          (bytes.length ≤ config.maxSize →
            error? = (Tree.harvest config maxDepth bytes).ending live) ∧
          (error? = none → ∃ last, next after = (.ok none, last))) ∧
      ∀ calls trees after,
        poll calls ((stream.setLive live).setMaxDepth maxDepth) = (trees, none, after) →
          trees.flatMap (fun tree => tree.input.toList) ++
            (after.state.buffer ++ after.state.source.content) = bytes := by
  have hbuffered := hvalid.buffered hsize
  obtain ⟨stream, hcreate, state, hstate, rfl, hfed⟩ :=
    create_fed hbuffered hnode hsource hcontent maxDepth
  refine ⟨stream, hcreate, fun calls hcalls => ?_, fun calls trees after hpoll => ?_⟩
  · obtain ⟨error?, after, hpoll, hfails, hending, hlast⟩ := poll_harvest hsize hfed hcalls
    rw [Tree.harvest_bufferSize hvalid hbuffered] at hpoll hfails hending
    rw [hstate]
    refine ⟨error?, after, hpoll, hfails, hending, fun hnone => ?_⟩
    obtain ⟨last, hnext⟩ := hlast hnone
    exact ⟨_, hnext⟩
  · rw [hstate] at hpoll
    obtain ⟨last, left, rfl, hkept, hbytes⟩ := poll_kept hsize hfed hpoll
    rw [hkept.content]
    exact hbytes

/-- Two messages and a part of a third one, from a live source with a buffer of two bytes. -/
theorem poll_arrival_pieces :
    ∃ first second, Tree.harvest {} maxSize [0x92, 0x01, 0xc0, 0xc3, 0x91] =
        { trees := [first, second], rest := [0x91], error? := none } ∧
      ∃ stream : Stream, Stream.create { bufferSize := 2 } {
          deliveries := [.chunk [0x92], .pause, .chunk [0x01, 0xc0, 0xc3],
            .failure { kind := .wouldBlock, text := "later" }, .chunk [0x91]] } = .ok stream ∧
        ∃ after, poll 11 ((stream.setLive true).setMaxDepth maxSize) =
          ([first, second], none, after) := by
  obtain ⟨first, hfirst⟩ : ∃ tree, Tree.parseWithin {} maxSize [0x92, 0x01, 0xc0] = .ok tree :=
    ⟨_, by cbv⟩
  obtain ⟨second, hsecond⟩ : ∃ tree, Tree.parseWithin {} maxSize [0xc3] = .ok tree :=
    ⟨_, by cbv⟩
  have hlast : Tree.harvest {} maxSize [0x91] = { trees := [], rest := [0x91], error? := none } :=
    Tree.harvest_none (by cbv)
  have hsame : Tree.harvest {} maxSize [0xc3, 0x91] =
      { trees := [second], rest := [0x91], error? := none } := by
    rw [Tree.harvest_tree (n := 1) (by cbv) hsecond]
    simp only [List.drop_succ_cons, List.drop_zero, hlast]
  have hharvest : Tree.harvest {} maxSize [0x92, 0x01, 0xc0, 0xc3, 0x91] =
      { trees := [first, second], rest := [0x91], error? := none } := by
    rw [Tree.harvest_tree (n := 3) (by cbv) hfirst]
    simp only [List.drop_succ_cons, List.drop_zero, hsame]
  have hpassing : Source.Passing true {
      deliveries := [.chunk [0x92], .pause, .chunk [0x01, 0xc0, 0xc3],
        .failure { kind := .wouldBlock, text := "later" }, .chunk [0x91]] } := by
    refine ⟨fun delivery hmember => ?_, by decide⟩
    simp only [List.mem_cons, List.not_mem_nil, or_false] at hmember
    rcases hmember with rfl | rfl | rfl | rfl | rfl <;> simp [Delivery.Passing]
  have hvalid : Config.Valid {} := by decide
  obtain ⟨stream, hcreate, hpoll, -⟩ :=
    poll_arrival hvalid rfl true maxSize [0x92, 0x01, 0xc0, 0xc3, 0x91] Nat.two_pos hpassing rfl
  obtain ⟨error?, after, hcalls, -, hending, -⟩ := hpoll 11 (by decide)
  rw [hending (by decide), hharvest] at hcalls
  exact ⟨first, second, hharvest, stream, hcreate, after, hcalls⟩

end Stream
end MessagePack
