import Mathlib.Algebra.BigOperators.Intervals
import MessagePack.Proofs.Faithful

/-!
Slots taken by a parse. A compound may ask for as many slots as there are bytes left, and every
compound open around it has asked before; so a parse that fails may have taken more slots than
there are bytes, once over for each level it is in. What begins with a complete message never
takes more slots than the message has bytes.
-/

namespace MessagePack.Tree

/-- The most slots for so many bytes and so many levels of compounds: the root, and at each level
what is left behind the headers of the levels around it. -/
def mostSlots (bytes : Nat) : Nat → Nat
  | 0 => 1
  | levels + 1 => mostSlots bytes levels + (bytes - (levels + 1))

theorem mostSlots_mono {bytes fewer more : Nat} (hle : fewer ≤ more) :
    mostSlots bytes fewer ≤ mostSlots bytes more := by
  induction hle with
  | refl => exact Nat.le_refl _
  | step _ ih => exact Nat.le_trans ih (Nat.le_add_right _ _)

theorem mostSlots_pos (bytes levels : Nat) : 1 ≤ mostSlots bytes levels :=
  mostSlots_mono (Nat.zero_le levels)

theorem mostSlots_add_le (bytes levels : Nat) :
    mostSlots bytes levels + (bytes - levels) * (bytes - levels - 1) / 2 ≤
      1 + bytes * (bytes - 1) / 2 := by
  induction levels with
  | zero => exact Nat.le_refl _
  | succ levels ih =>
      refine Nat.le_trans ?_ ih
      rw [mostSlots, Nat.add_assoc]
      refine Nat.add_le_add_left ?_ _
      rcases Nat.lt_or_ge levels bytes with hless | hmore
      · obtain ⟨left, hleft⟩ := Nat.exists_eq_add_of_lt hless
        have hfirst : bytes - (levels + 1) = left := by omega
        have hsecond : bytes - levels = left + 1 := by omega
        rw [hfirst, hsecond, Nat.add_sub_cancel, Nat.add_comm, ← Nat.triangle_succ]
        exact Nat.le_refl _
      · have hnone : bytes - (levels + 1) = 0 := by omega
        rw [hnone]
        exact Nat.zero_le _

/-- However many levels there may be. -/
theorem mostSlots_le (bytes levels : Nat) :
    mostSlots bytes levels ≤ 1 + bytes * (bytes - 1) / 2 :=
  Nat.le_trans (Nat.le_add_right _ _) (mostSlots_add_le bytes levels)

namespace Progress

variable {options : TagOptions} {limits : Limits} {progress after start : Progress}
  {id : NodeId} {depth count bound : Nat}

/-- The next element, a compound of it being at the given depth, asks for so many slots and is
not refused for its depth or for want of bytes. -/
structure Asks (options : TagOptions) (limits : Limits) (depth count : Nat) (progress : Progress) :
    Prop where
  header : ∃ tag size, Header.decode options progress.rest = .ok (tag, size) ∧
    tag.childCount? = some count ∧ count + size ≤ progress.rest.length
  some : count ≠ 0
  depth : depth ≤ limits.maxDepth

theorem Asks.lt (hasks : Asks options limits depth count progress) :
    count < progress.rest.length := by
  obtain ⟨tag, size, hdecode, -, hroom⟩ := hasks.header
  have := (Header.decode_size_pos hdecode).1
  omega

/-- An element that is read takes the slots it asks for. -/
theorem readElement_asks (hread : progress.readElement options limits id depth = .ok after) :
    (after.levels = progress.levels ∧ after.arena.count = progress.arena.count) ∨
      ∃ count next, Asks options limits depth count progress ∧
        after.levels = { next, left := count, depth := depth + 1 } :: progress.levels ∧
        after.arena.count = progress.arena.count + count := by
  obtain ⟨⟨tag, size⟩, hdecode, hread⟩ := bind_eq_ok hread
  obtain ⟨body, hbody, hread⟩ := bind_eq_ok hread
  obtain ⟨-, rfl⟩ := advance_eq_ok hbody
  split at hread
  · obtain ⟨_, -, hread⟩ := bind_eq_ok hread
    obtain ⟨payload, hpayload, hread⟩ := bind_eq_ok hread
    obtain ⟨-, rfl⟩ := advance_eq_ok hpayload
    cases hread
    exact .inl ⟨rfl, rfl⟩
  · next count hlength hcount =>
      obtain ⟨⟨children?, opened⟩, hopen, hread⟩ := bind_eq_ok hread
      cases hread
      obtain ⟨hdepth, ⟨-, -, rfl⟩ | ⟨hpos, henough, -, first, arena, hallocate, -, rfl⟩⟩ :=
        openRun_cases hopen
      · exact .inl ⟨rfl, rfl⟩
      · have hsize := Header.decode_size_pos hdecode
        rw [List.length_drop] at henough
        refine .inr ⟨count, first, ⟨⟨tag, size, hdecode, hcount, ?_⟩, ?_, hdepth⟩, rfl, ?_⟩
        · omega
        · exact Nat.ne_of_gt hpos
        · exact (Arena.allocate_extends hpos hallocate).count
  · cases hread
    exact .inl ⟨rfl, rfl⟩

/-! A bound on what is asked for next is one on all slots. -/

/-- The next element asks for no slots beyond the bound. -/
def Spares (options : TagOptions) (limits : Limits) (bound : Nat) (progress : Progress) : Prop :=
  ∀ level ∈ progress.levels.head?, level.left ≠ 0 →
    ∀ count, Asks options limits level.depth count progress → progress.arena.count + count ≤ bound

theorem Spares.count_step (hspares : Spares options limits bound progress)
    (hcount : progress.arena.count ≤ bound) (hstep : progress.step options limits = .ok after) :
    after.arena.count ≤ bound := by
  unfold Progress.step at hstep
  split at hstep
  · cases hstep
    exact hcount
  · next level outer hcons =>
      split at hstep
      · cases hstep
        exact hcount
      · next hleft =>
          have hhead : level ∈ progress.levels.head? := by rw [hcons]; rfl
          rcases readElement_asks hstep with ⟨-, hsame⟩ | ⟨count, next, hasks, -, hmore⟩
          · rw [hsame]
            exact hcount
          · rw [hmore]
            exact hspares level hhead hleft count ⟨hasks.header, hasks.some, hasks.depth⟩

theorem Reaches.count_le (hstart : start.arena.count ≤ bound)
    (hspares : ∀ progress, Reaches options limits start progress →
      Spares options limits bound progress)
    (hreaches : Reaches options limits start progress) : progress.arena.count ≤ bound := by
  induction hreaches with
  | start => exact hstart
  | step hreaches hstep ih => exact (hspares _ hreaches).count_step ih hstep

/-! Such a bound makes the limit on nodes of no account. -/

theorem openRun_spared {maxNodes : Nat} (hlimit : bound ≤ limits.maxNodes)
    (hother : bound ≤ maxNodes)
    (hspared : depth ≤ limits.maxDepth → count ≠ 0 → count ≤ progress.rest.length →
      progress.arena.count + count ≤ bound) :
    progress.openRun { limits with maxNodes } depth count =
      progress.openRun limits depth count := by
  unfold openRun
  split
  · rfl
  · next hdepth =>
      split
      · rfl
      · next hsome =>
          split
          · rfl
          · next henough =>
              simp only [Bool.not_eq_true, Bool.not_eq_false', hasAtLeast_iff] at henough
              have hcount := hspared (Nat.le_of_not_lt hdepth) hsome henough
              rw [if_neg (Nat.not_lt.mpr (Nat.le_trans hcount hother)),
                if_neg (Nat.not_lt.mpr (Nat.le_trans hcount hlimit))]

theorem readElement_spared {maxNodes : Nat} (hlimit : bound ≤ limits.maxNodes)
    (hother : bound ≤ maxNodes)
    (hspared : ∀ count, Asks options limits depth count progress →
      progress.arena.count + count ≤ bound) :
    progress.readElement options { limits with maxNodes } id depth =
      progress.readElement options limits id depth := by
  unfold readElement
  cases hdecode : Header.decode options progress.rest with
  | error error => rfl
  | ok found =>
      obtain ⟨tag, size⟩ := found
      simp only [bind, Except.bind]
      cases hadvance : progress.advance limits size with
      | error error =>
          have hsame : progress.advance { limits with maxNodes } size = .error error := hadvance
          rw [hsame]
      | ok body =>
          have hsame : progress.advance { limits with maxNodes } size = .ok body := hadvance
          obtain ⟨-, rfl⟩ := advance_eq_ok hadvance
          rw [hsame]
          simp only
          split
          · rfl
          · next count hlength hcount =>
              rw [openRun_spared hlimit hother fun hdepth hsome henough => ?_]
              have hsize := Header.decode_size_pos hdecode
              simp only [List.length_drop] at henough
              exact hspared count ⟨⟨tag, size, hdecode, hcount, by omega⟩, hsome, hdepth⟩
          · rfl

theorem Spares.step_eq {maxNodes : Nat} (hspares : Spares options limits bound progress)
    (hlimit : bound ≤ limits.maxNodes) (hother : bound ≤ maxNodes) :
    progress.step options { limits with maxNodes } = progress.step options limits := by
  unfold Progress.step
  split
  · rfl
  · next level outer hcons =>
      split
      · rfl
      · next hleft =>
          have hhead : level ∈ progress.levels.head? := by rw [hcons]; rfl
          exact readElement_spared hlimit hother fun count hasks =>
            hspares level hhead hleft count ⟨hasks.header, hasks.some, hasks.depth⟩

theorem run_spared {maxNodes : Nat} (hlimit : bound ≤ limits.maxNodes) (hother : bound ≤ maxNodes)
    (hspares : ∀ progress, Reaches options limits start progress →
      Spares options limits bound progress)
    (hreaches : Reaches options limits start progress) :
    progress.run options { limits with maxNodes } = progress.run options limits := by
  fun_induction run options limits progress with
  | case1 progress hlevels => rw [run, dif_pos hlevels]
  | case2 progress hlevels after hstep ih =>
      rw [run_bind hlevels, (hspares progress hreaches).step_eq hlimit hother, hstep]
      exact ih (hreaches.step hstep)
  | case3 progress hlevels error hstep =>
      rw [run_bind hlevels, (hspares progress hreaches).step_eq hlimit hother, hstep]
      rfl

/-! Any input. What an open level may still take is paid for by the bytes that are left. -/

/-- Slots and bytes left, with the given number of slots still to fill further in: at each level
they keep within what that level may take. -/
def Paid (bytes spent : Nat) : Nat → List Level → Prop
  | _, [] => True
  | inside, level :: outer =>
      level.depth = outer.length + 1 ∧
      spent ≤ mostSlots bytes outer.length + (bytes - outer.length) + inside ∧
      Paid bytes spent (inside + level.left) outer

theorem Paid.mono {bytes spent less inside more : Nat} {levels : List Level}
    (hpaid : Paid bytes spent inside levels) (hle : less + inside ≤ spent + more) :
    Paid bytes less more levels := by
  induction levels generalizing inside more with
  | nil => trivial
  | cons level outer ih =>
      obtain ⟨hdepth, hspent, houter⟩ := hpaid
      exact ⟨hdepth, by omega, ih houter (by omega)⟩

structure Spread (bytes : Nat) (progress : Progress) : Prop where
  height : progress.rest.length + progress.levels.length ≤ bytes + 1
  paid : Paid bytes (progress.arena.count + progress.rest.length) 0 progress.levels

theorem Spread.step {bytes : Nat} (hspread : Spread bytes progress)
    (hstep : progress.step options limits = .ok after) : Spread bytes after := by
  have hheight := hspread.height
  have hpaid := hspread.paid
  unfold Progress.step at hstep
  split at hstep
  · cases hstep
    exact hspread
  · next level outer hcons =>
      rw [hcons] at hheight hpaid
      obtain ⟨hdepth, hspent, houter⟩ := hpaid
      simp only [List.length_cons] at hheight
      split at hstep
      · next hleft =>
          cases hstep
          refine ⟨by simp only; omega, houter.mono ?_⟩
          simp only
          omega
      · next hleft =>
          have hless := length_rest_readElement hstep
          rcases readElement_asks hstep with
            ⟨hlevels, hcount⟩ | ⟨count, next, hasks, hlevels, hcount⟩
          · simp only at hless hcount hlevels
            refine ⟨?_, ?_⟩
            · rw [hlevels, List.length_cons]
              omega
            · rw [hlevels, hcount]
              exact ⟨hdepth, by omega, houter.mono (by simp only; omega)⟩
          · have hroom := hasks.lt
            simp only at hless hcount hlevels hroom
            refine ⟨?_, ?_⟩
            · rw [hlevels, List.length_cons, List.length_cons]
              omega
            · rw [hlevels, hcount]
              refine ⟨?_, ?_, hdepth, by simp only; omega, houter.mono (by simp only; omega)⟩
              · rw [List.length_cons, hdepth]
              · rw [List.length_cons, mostSlots]
                omega

theorem Spread.spares {bytes : Nat} (hspread : Spread bytes progress) :
    Spares options limits (mostSlots bytes limits.maxDepth) progress := by
  intro level hhead hleft count hasks
  cases hlevels : progress.levels with
  | nil => rw [hlevels] at hhead; cases hhead
  | cons first outer =>
      have hheight := hspread.height
      have hpaid := hspread.paid
      rw [hlevels] at hhead hheight hpaid
      cases hhead
      obtain ⟨hdepth, hspent, -⟩ := hpaid
      have hroom := hasks.lt
      have hnext : progress.arena.count + count ≤ mostSlots bytes level.depth := by
        rw [hdepth, mostSlots]
        simp only [List.length_cons] at hheight
        omega
      exact Nat.le_trans hnext (mostSlots_mono hasks.depth)

/-! A complete message. A slot is taken only for what is there to fill it. -/

/-- The slots are those of the nodes of a message, less the nodes further in that are to come. -/
def Foreseen (options : TagOptions) (nodes : Nat) (rest : Bytes) (progress : Progress) : Prop :=
  ∃ messages, Facing options progress messages rest ∧
    progress.arena.count + Message.nodesOf messages = nodes + messages.length

section Foreseen

variable {nodes : Nat} {rest : Bytes}

theorem Foreseen.step (hforeseen : Foreseen options nodes rest progress)
    (hstep : progress.step options limits = .ok after) : Foreseen options nodes rest after := by
  obtain ⟨messages, hfacing, hnodes⟩ := hforeseen
  unfold Progress.step at hstep
  split at hstep
  · cases hstep
    exact ⟨messages, hfacing, hnodes⟩
  · next level outer hcons =>
      split at hstep
      · next hleft =>
          cases hstep
          refine ⟨messages, ⟨?_, hfacing.complete, hfacing.rest⟩, hnodes⟩
          rw [slots_full hcons hleft]
          exact hfacing.length
      · next hleft =>
          have hslots := slots_next hcons hleft
          cases messages with
          | nil =>
              have hlength := hfacing.length
              rw [hslots] at hlength
              cases hlength
          | cons message messages =>
              obtain ⟨header, tag, payload, children⟩ := message
              obtain ⟨node, hfills, rfl, hafter⟩ := hfacing.fill hslots hstep
              refine ⟨children ++ messages, hafter, ?_⟩
              obtain ⟨arena, hextends, harena⟩ := hfills.arena
              have hcomplete := hfacing.complete _ (.head _)
              cases hcomplete with
              | node hheader hpayload hchildren hinside =>
                  have hcount : after.arena.count = progress.arena.count + children.length := by
                    rw [harena, hchildren]
                    exact hextends.count
                  rw [hcount, Message.nodesOf_append, List.length_append]
                  simp only [Message.nodesOf, Message.nodes, List.length_cons] at hnodes
                  omega

theorem Foreseen.spares (hforeseen : Foreseen options nodes rest progress) :
    Spares options limits nodes progress := by
  obtain ⟨messages, hfacing, hnodes⟩ := hforeseen
  intro level hhead hleft count hasks
  cases hlevels : progress.levels with
  | nil => rw [hlevels] at hhead; cases hhead
  | cons first outer =>
      rw [hlevels] at hhead
      cases hhead
      cases messages with
      | nil =>
          have hlength := hfacing.length
          rw [slots_next hlevels hleft] at hlength
          cases hlength
      | cons message messages =>
          obtain ⟨header, tag, payload, children⟩ := message
          obtain ⟨found, size, hdecode, hcount, -⟩ := hasks.header
          have hcomplete := hfacing.complete _ (.head _)
          cases hcomplete with
          | node hheader hpayload hchildren hinside =>
              have hrest := hfacing.children_le.1
              rw [hrest, Header.decode_append hheader] at hdecode
              cases hdecode
              rw [hcount, Option.getD_some] at hchildren
              have hbelow := Message.length_le_nodesOf children
              have haround := Message.length_le_nodesOf messages
              simp only [Message.nodesOf, Message.nodes, List.length_cons] at hnodes
              omega

end Foreseen

/-! From the start. -/

variable {config : Config} {maxDepth : Nat} {bytes : Bytes} {root : NodeId} {start : Progress}

theorem count_of_initial (hinitial : initial config bytes = .ok (root, start)) :
    start.arena.count = 1 := by
  obtain ⟨arena, rfl, hcount, -, -⟩ := start_of_initial hinitial
  exact hcount

theorem Reaches.spread (hinitial : initial config bytes = .ok (root, start))
    (hreaches : Reaches options limits start progress) : Spread bytes.length progress := by
  induction hreaches with
  | start =>
      obtain ⟨arena, rfl, hcount, -, -⟩ := start_of_initial hinitial
      refine ⟨Nat.le_refl _, rfl, ?_, trivial⟩
      simp only [Progress.start, hcount]
      exact Nat.le_refl _
  | step _ hstep ih => exact ih.step hstep

theorem Reaches.foreseen {message : Message} {rest : Bytes} (hcomplete : message.Complete options)
    (hinitial : initial config (message.bytes ++ rest) = .ok (root, start))
    (hreaches : Reaches options limits start progress) :
    Foreseen options message.nodes rest progress := by
  induction hreaches with
  | start =>
      obtain ⟨arena, rfl, hcount, -, -⟩ := start_of_initial hinitial
      refine ⟨[message], ⟨rfl, fun other hother => ?_, ?_⟩, ?_⟩
      · rw [List.mem_singleton.mp hother]
        exact hcomplete
      · rw [Message.text, Message.text, List.append_nil]
        rfl
      · simp only [Progress.start, hcount, Message.nodesOf, List.length_singleton]
        omega
  | step _ hstep ih => exact ih.step hstep

end Progress

variable {config : Config} {maxDepth bound : Nat} {bytes : Bytes}

/-- A limit on nodes that no element of a parse goes beyond may as well be any other such. -/
theorem parseWithin_spared
    (hspares : ∀ progress, Progress.UnderWay config maxDepth bytes progress →
      Progress.Spares config.tagOptions (.of config maxDepth) bound progress)
    (hlimit : bound ≤ config.maxNodes) {maxNodes : Nat} (hother : bound ≤ maxNodes) :
    parseWithin { config with maxNodes } maxDepth bytes = parseWithin config maxDepth bytes := by
  have hfront : parseFront { config with maxNodes } maxDepth bytes =
      parseFront config maxDepth bytes := by
    refine bind_congr fun _ => bind_congr fun _ => ?_
    show (Progress.initial config bytes >>= _) = _
    cases hinitial : Progress.initial config bytes with
    | error error => rfl
    | ok started =>
        obtain ⟨root, start⟩ := started
        have hrun := Progress.run_spared hlimit hother
          (fun progress hreaches => hspares progress ⟨root, start, hinitial, hreaches⟩) .start
        exact congrArg (Except.map _) hrun
  rw [parseWithin, hfront]
  rfl

/-- No parse, also one that fails, takes more slots than its bytes and its levels allow, and none
of what begins with a complete message takes more than the message has bytes. A limit on nodes
that leaves room for these refuses nothing: to raise it makes no difference. -/
theorem slots_taken (config : Config) (maxDepth : Nat) (bytes : Bytes) :
    (∀ progress, Progress.UnderWay config maxDepth bytes progress →
      progress.arena.count ≤ mostSlots bytes.length (config.nodeDepthLimit maxDepth) ∧
      progress.arena.count ≤ 1 + bytes.length * (bytes.length - 1) / 2 ∧
      ∀ (message : Message) (rest : Bytes), message.Complete config.tagOptions →
        bytes = message.bytes ++ rest → progress.arena.count ≤ message.bytes.length) ∧
    ∀ nodes more, nodes ≤ more →
      (mostSlots bytes.length (config.nodeDepthLimit maxDepth) ≤ nodes ∨
        ∃ (message : Message) (rest : Bytes), message.Complete config.tagOptions ∧
          bytes = message.bytes ++ rest ∧ message.bytes.length ≤ nodes) →
      parseWithin { config with maxNodes := nodes } maxDepth bytes =
        parseWithin { config with maxNodes := more } maxDepth bytes := by
  refine ⟨?_, fun nodes more hmore hroom => ?_⟩
  · rintro progress ⟨root, start, hinitial, hreaches⟩
    have hcount : progress.arena.count ≤
        mostSlots bytes.length (config.nodeDepthLimit maxDepth) := by
      refine hreaches.count_le ?_ fun _ hreached => (hreached.spread hinitial).spares
      rw [Progress.count_of_initial hinitial]
      exact mostSlots_pos _ _
    refine ⟨hcount, Nat.le_trans hcount (mostSlots_le _ _), ?_⟩
    rintro message rest hcomplete rfl
    obtain ⟨messages, -, hnodes⟩ := hreaches.foreseen hcomplete hinitial
    have hcome := Message.length_le_nodesOf messages
    have hbytes := hcomplete.nodes_le
    omega
  · have hraise {bound : Nat} :=
      @parseWithin_spared { config with maxNodes := nodes } maxDepth bound
    rcases hroom with hroom | ⟨message, rest, hcomplete, rfl, hroom⟩
    · refine (hraise ?_ hroom (Nat.le_trans hroom hmore)).symm
      exact fun _ ⟨_, _, hinitial, hreached⟩ => (hreached.spread hinitial).spares
    · have hnodes := Nat.le_trans hcomplete.nodes_le hroom
      refine (hraise ?_ hnodes (Nat.le_trans hnodes hmore)).symm
      exact fun _ ⟨_, _, hinitial, hreached⟩ => (hreached.foreseen hcomplete hinitial).spares

/-- Arrays of three, two, one and none, one in another: there are four bytes, and seven slots are
taken before one of them is missed. -/
theorem slots_taken_nested :
    (∃ progress, Progress.UnderWay {} maxSize [0x93, 0x92, 0x91, 0x90] progress ∧
        progress.arena.count = 7) ∧
      parse { maxNodes := 4 } [0x93, 0x92, 0x91, 0x90] = .error (.tooBig 6 4) ∧
      parse {} [0x93, 0x92, 0x91, 0x90] = .error (.truncated 1 0) := by
  refine ⟨⟨_, ⟨_, _, rfl, .step (.step (.step .start rfl) rfl) rfl⟩, rfl⟩, ?_, ?_⟩
  · cbv
  · cbv

end MessagePack.Tree
