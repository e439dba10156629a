import MessagePack.Config

/-!
Paged storage for the nodes of a tree.

The children of a compound are a run of consecutive slots in one page. A run that does not
fit what is left of the current page starts another one; a run larger than a page gets a
page of its own. Only the room of a page can be refused: the list of pages grows by one.
-/

namespace MessagePack

structure NodeId where
  page : Nat
  index : Nat
  deriving DecidableEq, Inhabited

/-- The slot so many places further along the page. -/
def NodeId.offset (id : NodeId) (n : Nat) : NodeId :=
  { id with index := id.index + n }

structure NodeData where
  tag : Tag
  /-- Where the payload of a str, bin or ext starts. -/
  start : Nat := 0
  /-- The first child of an array or map that has one. -/
  children? : Option NodeId := none
  deriving DecidableEq, Inhabited

/-- What a slot holds until it is filled. -/
def NodeData.empty : NodeData :=
  { tag := .nil }

structure Page where
  capacity : Nat
  nodes : Array NodeData := #[]
  deriving DecidableEq, Inhabited

structure Arena where
  /-- Nodes in a regular page. -/
  pageNodes : Nat
  pages : Array Page := #[]
  /-- The page that runs are taken from. -/
  current? : Option Nat := none
  count : Nat := 0
  deriving DecidableEq

namespace Arena

/-- Bytes a node takes up in a page. -/
def nodeSize : Nat := 40

def ofPageBytes (bytes : Nat) : Arena :=
  { pageNodes := max 1 (bytes / nodeSize) }

def pageAt (arena : Arena) (page : Nat) : Page :=
  arena.pages.getD page { capacity := 0 }

def hasRoom (arena : Arena) (page n : Nat) : Bool :=
  n ≤ (arena.pageAt page).capacity - (arena.pageAt page).nodes.size

/-- Take the next `n` slots of a page. -/
def fill (page n : Nat) (arena : Arena) : NodeId × Arena :=
  let index := (arena.pageAt page).nodes.size
  ({ page, index },
    { arena with
      pages := arena.pages.modify page fun (page : Page) =>
        { page with nodes := page.nodes ++ List.replicate n NodeData.empty }
      count := arena.count + n })

def addPage (capacity : Nat) (arena : Arena) : Except Error Arena := do
  reserve capacity nodeSize
  return { arena with pages := arena.pages.push { capacity } }

/-- The first of `n` consecutive new slots. -/
def allocate (n : Nat) (arena : Arena) : Except Error (NodeId × Arena) :=
  let page := arena.pages.size
  if arena.pageNodes < n then do
    return fill page n (← arena.addPage n)
  else
    match arena.current?.filter (arena.hasRoom · n) with
    | some current => .ok (fill current n arena)
    | none => do
        let added ← arena.addPage arena.pageNodes
        return fill page n { added with current? := some page }

def get (arena : Arena) (id : NodeId) : NodeData :=
  (arena.pageAt id.page).nodes.getD id.index .empty

def set (id : NodeId) (node : NodeData) (arena : Arena) : Arena :=
  { arena with
    pages := arena.pages.modify id.page fun (page : Page) =>
      { page with nodes := page.nodes.setIfInBounds id.index node } }

end Arena
end MessagePack
