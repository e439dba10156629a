import MessagePack.Header
import MessagePack.Source
import MessagePack.Tree.Arena

/-!
Whole messages as trees.

A message is parsed in one pass over its bytes that is bounded in depth, size and node
count. A level is a run of slots that are still to be filled; the innermost level is worked
on first, so elements are read in the order of the bytes whatever their nesting. Room for the
first levels is reserved at the start, and one more at a time is never refused.
-/

namespace MessagePack

structure Tree where
  input : Array UInt8
  arena : Arena
  root : NodeId
  options : TagOptions
  /-- The deepest nesting of arrays and maps. -/
  depth : Nat

namespace Tree

def size (tree : Tree) : Nat :=
  tree.input.size

def nodeCount (tree : Tree) : Nat :=
  tree.arena.count

structure Limits where
  maxDepth : Nat
  maxSize : Nat
  maxNodes : Nat
  deriving DecidableEq

/-- Slots to fill from `next` on. -/
structure Level where
  next : NodeId
  left : Nat
  /-- The nesting of compounds found at this level. -/
  depth : Nat
  deriving DecidableEq

/-- Bytes a level takes up. -/
def Level.size : Nat := 16

structure Progress where
  position : Nat := 0
  /-- The bytes from the position on. -/
  rest : Bytes
  arena : Arena
  /-- Innermost first. -/
  levels : List Level
  deepest : Nat := 0

namespace Progress

/-- Nothing is read, and the root is all there is to fill. -/
def start (root : NodeId) (arena : Arena) (bytes : Bytes) : Progress :=
  { rest := bytes, arena, levels := [{ next := root, left := 1, depth := 1 }] }

/-- The root and the start of a parse, which takes room before it reads a byte. -/
def initial (config : Config) (bytes : Bytes) : Except Error (NodeId × Progress) := do
  if bytes = [] then
    throw (.truncated 1 0)
  let (root, arena) ← (Arena.ofPageBytes config.nodePageSize).allocate 1
  reserve config.nodeInitialDepth Level.size
  return (root, start root arena bytes)

def advance (limits : Limits) (n : Nat) (progress : Progress) : Except Error Progress :=
  if limits.maxSize < progress.position + n then
    .error (.tooBig (progress.position + n) limits.maxSize)
  else
    .ok { progress with
      position := progress.position + n
      rest := progress.rest.drop n }

def require (n : Nat) (progress : Progress) : Except Error Unit :=
  if hasAtLeast n progress.rest then .ok () else .error (.truncated n progress.rest.length)

def place (id : NodeId) (node : NodeData) (progress : Progress) : Progress :=
  { progress with arena := progress.arena.set id node }

/-- Take a run of slots for `count` children; every child takes at least one byte. -/
def openRun (limits : Limits) (depth count : Nat) (progress : Progress) :
    Except Error (Option NodeId × Progress) :=
  if limits.maxDepth < depth then
    .error (.tooDeep depth limits.maxDepth)
  else if count = 0 then
    .ok (none, { progress with deepest := max progress.deepest depth })
  else if !hasAtLeast count progress.rest then
    .error (.truncated count progress.rest.length)
  else if limits.maxNodes < progress.arena.count + count then
    .error (.tooBig (progress.arena.count + count) limits.maxNodes)
  else do
    let (first, arena) ← progress.arena.allocate count
    return (some first, { progress with
      arena
      levels := { next := first, left := count, depth := depth + 1 } :: progress.levels
      deepest := max progress.deepest depth })

/-- Fill the slot `id` with the next element, a compound of it being at the given depth. -/
def readElement (options : TagOptions) (limits : Limits) (id : NodeId) (depth : Nat)
    (progress : Progress) : Except Error Progress := do
  let (tag, size) ← Header.decode options progress.rest
  let body ← progress.advance limits size
  match tag.payloadLength?, tag.childCount? with
  | some length, _ =>
      body.require length
      let after ← body.advance limits length
      return after.place id { tag, start := body.position }
  | none, some count =>
      let (children?, after) ← body.openRun limits depth count
      return after.place id { tag, start := body.position, children? }
  | none, none => return body.place id { tag, start := body.position }

/-- Leave a level that is full, or fill its next slot. -/
def step (options : TagOptions) (limits : Limits) (progress : Progress) :
    Except Error Progress :=
  match progress.levels with
  | [] => .ok progress
  | level :: outer =>
      if level.left = 0 then
        .ok { progress with levels := outer }
      else
        readElement options limits level.next level.depth
          { progress with
            levels := { level with
              next := level.next.offset 1
              left := level.left - 1 } :: outer }

theorem initial_eq_ok {config : Config} {bytes : Bytes} {root : NodeId} {progress : Progress}
    (hinitial : initial config bytes = .ok (root, progress)) :
    bytes ≠ [] ∧ ∃ arena, (Arena.ofPageBytes config.nodePageSize).allocate 1 = .ok (root, arena) ∧
      reserve config.nodeInitialDepth Level.size = .ok () ∧ progress = start root arena bytes := by
  unfold initial at hinitial
  split at hinitial
  · cases hinitial
  · next hsome =>
    obtain ⟨⟨_, arena⟩, hallocate, hinitial⟩ := bind_eq_ok hinitial
    obtain ⟨_, hreserve, hpure⟩ := bind_eq_ok hinitial
    cases hpure
    exact ⟨hsome, arena, hallocate, hreserve, rfl⟩

/-! Every step leaves a level or uses up bytes. -/

theorem rest_advance {limits : Limits} {n : Nat} {progress after : Progress}
    (hadvance : progress.advance limits n = .ok after) :
    after.rest = progress.rest.drop n := by
  unfold advance at hadvance
  split at hadvance <;> cases hadvance
  rfl

theorem rest_openRun {limits : Limits} {depth count : Nat} {progress after : Progress}
    {children? : Option NodeId}
    (hopen : progress.openRun limits depth count = .ok (children?, after)) :
    after.rest = progress.rest := by
  unfold openRun at hopen
  split at hopen
  · cases hopen
  · split at hopen
    · cases hopen; rfl
    · split at hopen
      · cases hopen
      · split at hopen
        · cases hopen
        · obtain ⟨_, _, hpure⟩ := bind_eq_ok hopen
          cases hpure
          rfl

theorem length_rest_readElement {options : TagOptions} {limits : Limits} {id : NodeId}
    {depth : Nat} {progress after : Progress}
    (hread : progress.readElement options limits id depth = .ok after) :
    after.rest.length < progress.rest.length := by
  obtain ⟨⟨tag, size⟩, hdecode, hread⟩ := bind_eq_ok hread
  have hsize := Header.decode_size_pos hdecode
  obtain ⟨body, hbody, hread⟩ := bind_eq_ok hread
  have hrest : body.rest.length < progress.rest.length := by
    rw [rest_advance hbody, List.length_drop]
    omega
  split at hread
  · obtain ⟨_, _, hread⟩ := bind_eq_ok hread
    obtain ⟨payload, hpayload, hread⟩ := bind_eq_ok hread
    cases hread
    refine Nat.lt_of_le_of_lt ?_ hrest
    simp [place, rest_advance hpayload]
  · obtain ⟨⟨children?, run⟩, hrun, hread⟩ := bind_eq_ok hread
    cases hread
    simpa [place, rest_openRun hrun] using hrest
  · cases hread
    exact hrest

theorem step_decreases {options : TagOptions} {limits : Limits} {progress after : Progress}
    (hlevels : progress.levels ≠ []) (hstep : progress.step options limits = .ok after) :
    Prod.Lex (· < ·) (· < ·) (after.rest.length, after.levels.length)
      (progress.rest.length, progress.levels.length) := by
  unfold step at hstep
  split at hstep
  · next hnil => exact absurd hnil hlevels
  · next level outer hcons =>
    split at hstep
    · cases hstep
      exact Prod.Lex.right _ (by simp [hcons])
    · have hlt := length_rest_readElement hstep
      exact Prod.Lex.left _ _ hlt

def run (options : TagOptions) (limits : Limits) (progress : Progress) :
    Except Error Progress :=
  if _hlevels : progress.levels = [] then
    .ok progress
  else
    match _hstep : progress.step options limits with
    | .ok after => run options limits after
    | .error error => .error error
termination_by (progress.rest.length, progress.levels.length)
decreasing_by exact step_decreases _hlevels _hstep

end Progress

/-- The message at the start of `bytes`, and the bytes behind it. -/
def parseFront (config : Config) (maxDepth : Nat) (bytes : Bytes) :
    Except Error (Tree × Bytes) := do
  requireFeature config.node .node
  config.validate
  let limits : Limits := {
    maxDepth := config.nodeDepthLimit maxDepth
    maxSize := config.maxSize
    maxNodes := config.maxNodes }
  let (root, start) ← Progress.initial config bytes
  let done ← start.run config.tagOptions limits
  return ({
    input := (bytes.take done.position).toArray
    arena := done.arena
    root
    options := config.tagOptions
    depth := done.deepest }, done.rest)

/-- Exactly one message, nested no deeper than asked for. -/
def parseWithin (config : Config) (maxDepth : Nat) (bytes : Bytes) : Except Error Tree := do
  match ← parseFront config maxDepth bytes with
  | (tree, []) => return tree
  | (_, rest) => throw (.invalid (.trailingData rest.length))

/-- There is no message without bytes. -/
theorem length_pos_of_parseWithin {config : Config} {maxDepth : Nat} {bytes : Bytes}
    {tree : Tree} (hparse : parseWithin config maxDepth bytes = .ok tree) :
    0 < bytes.length := by
  obtain ⟨_, hfront, _⟩ := bind_eq_ok hparse
  obtain ⟨_, _, hfront⟩ := bind_eq_ok hfront
  obtain ⟨_, _, hfront⟩ := bind_eq_ok hfront
  obtain ⟨_, hinitial, _⟩ := bind_eq_ok hfront
  obtain ⟨hsome, _⟩ := Progress.initial_eq_ok hinitial
  exact List.length_pos_iff.mpr hsome

def parse (config : Config) (bytes : Bytes) : Except Error Tree :=
  parseWithin config config.maxDepth bytes

/-- Read a source to its end, or to one byte more than a message may have, and parse it. -/
def readFrom (config : Config) (source : Source) : Except Error Tree × Source :=
  match source.collect (config.maxSize + 1) #[] with
  | (.error failure, after) => (.error (.io failure), after)
  | (.ok bytes, after) =>
      if hasAtLeast (config.maxSize + 1) bytes then
        (.error (.tooBig bytes.length config.maxSize), after)
      else
        (parse config bytes, after)

end Tree
end MessagePack
