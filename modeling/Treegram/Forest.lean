/-!
# Ordered forests

A forest is a list of ordered trees. It is written in first-child, next-sibling form, so one
recursion goes down and along. The preorder listing of the nodes with their depths, the outline,
determines the forest.
-/

namespace Treegram

/-- No tree, or a first tree, given by its node and its children, and the trees after it. -/
inductive Forest (α : Type) where
  | nil
  | cons (node : α) (children rest : Forest α)
  deriving DecidableEq

/-- A node and the forest of its children. -/
structure Tree (α : Type) where
  node : α
  children : Forest α
  deriving DecidableEq

namespace Forest

variable {α β : Type}

def single (t : Tree α) : Forest α :=
  .cons t.node t.children .nil

def append : Forest α → Forest α → Forest α
  | .nil, g => g
  | .cons a kids rest, g => .cons a kids (rest.append g)

instance : Append (Forest α) := ⟨append⟩

/-- The trees of `f`, last one first, followed by those of `g`. -/
def reverseOnto : Forest α → Forest α → Forest α
  | .nil, g => g
  | .cons a kids rest, g => rest.reverseOnto (.cons a kids g)

/-- The trees of `f`, last one first; the trees themselves stay as they are. -/
def reverse (f : Forest α) : Forest α :=
  f.reverseOnto .nil

def map (g : α → β) : Forest α → Forest β
  | .nil => .nil
  | .cons a kids rest => .cons (g a) (kids.map g) (rest.map g)

def trees : Forest α → List (Tree α)
  | .nil => []
  | .cons a kids rest => ⟨a, kids⟩ :: rest.trees

/-- All nodes, each before its children. -/
def nodes : Forest α → List α
  | .nil => []
  | .cons a kids rest => a :: (kids.nodes ++ rest.nodes)

/-- All nodes, each after its children. -/
def postorder : Forest α → List α
  | .nil => []
  | .cons a kids rest => kids.postorder ++ a :: rest.postorder

def size : Forest α → Nat
  | .nil => 0
  | .cons _ kids rest => kids.size + rest.size + 1

/-- The sum of what each node weighs. -/
def weight (w : α → Nat) : Forest α → Nat
  | .nil => 0
  | .cons a kids rest => w a + kids.weight w + rest.weight w

/-- All nodes with their depths, each before its children; the trees of the forest stand at
`depth`. -/
def outline (depth : Nat) : Forest α → List (Nat × α)
  | .nil => []
  | .cons a kids rest => (depth, a) :: (kids.outline (depth + 1) ++ rest.outline depth)

def ofTrees : List (Tree α) → Forest α
  | [] => .nil
  | t :: ts => .cons t.node t.children (ofTrees ts)

/-- The trees whose nodes are listed with their depths, each tree with the depth at which it
stands. The deeper trees that follow a node at once are its children. -/
def ofDepths : List (Nat × α) → List (Nat × Tree α)
  | [] => []
  | (depth, a) :: entries =>
    let (kids, others) := (ofDepths entries).span fun t => depth < t.1
    (depth, ⟨a, ofTrees (kids.map Prod.snd)⟩) :: others

def ofOutline (entries : List (Nat × α)) : Forest α :=
  ofTrees ((ofDepths entries).map Prod.snd)

/-- The first tree in preorder, at any depth, whose node satisfies `p`. -/
def find? (p : α → Bool) : Forest α → Option (Tree α)
  | .nil => none
  | .cons a kids rest =>
    if p a then some ⟨a, kids⟩
    else
      match kids.find? p with
      | some t => some t
      | none => rest.find? p

/-- Whether two forests have the same shape and related nodes at every place. -/
def alike (r : α → β → Bool) : Forest α → Forest β → Bool
  | .nil, .nil => true
  | .cons a kids rest, .cons b kids' rest' => r a b && kids.alike r kids' && rest.alike r rest'
  | _, _ => false

end Forest

namespace Tree

variable {α β : Type}

def map (g : α → β) (t : Tree α) : Tree β :=
  ⟨g t.node, t.children.map g⟩

def nodes (t : Tree α) : List α :=
  t.node :: t.children.nodes

def postorder (t : Tree α) : List α :=
  t.children.postorder ++ [t.node]

def size (t : Tree α) : Nat :=
  t.children.size + 1

def weight (w : α → Nat) (t : Tree α) : Nat :=
  w t.node + t.children.weight w

/-- All nodes with their depths, each before its children; the tree's own node is at depth 0. -/
def outline (t : Tree α) : List (Nat × α) :=
  (0, t.node) :: t.children.outline 1

def find? (p : α → Bool) (t : Tree α) : Option (Tree α) :=
  if p t.node then some t else t.children.find? p

def alike (r : α → β → Bool) (t : Tree α) (u : Tree β) : Bool :=
  r t.node u.node && t.children.alike r u.children

end Tree

end Treegram
