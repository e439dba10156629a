import MessagePack.Tree.Node

/-!
The nodes below a root, each before its children, which is the order of their bytes.
-/

namespace MessagePack.Tree

/-- Visit the pending nodes and everything below them, at most `fuel` nodes. -/
def visit (tree : Tree) : Nat → List NodeId → Array NodeId → List NodeId
  | 0, _, visited => visited.toList
  | _ + 1, [], visited => visited.toList
  | fuel + 1, id :: pending, visited =>
      visit tree fuel (tree.childrenOf id ++ pending) (visited.push id)

def preorder (tree : Tree) : List NodeId :=
  visit tree tree.nodeCount [tree.root] #[]

def tags (tree : Tree) : List Tag :=
  tree.preorder.map tree.tagAt

end MessagePack.Tree
