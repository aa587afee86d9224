/-!
Ordered forests and trees of labels. A forest is a first tree, given by its root's label and the forest of its
subtrees, beside a forest of the remaining trees; so one structural recursion visits every label, and the labels
come out in the order of a depth-first walk from left to right.
-/

namespace Tableaux

inductive Forest (α : Type) where
  | nil
  | cons (label : α) (below beside : Forest α)
deriving DecidableEq

/-- A forest with one root. -/
structure Tree (α : Type) where
  root : α
  below : Forest α
deriving DecidableEq

namespace Forest

variable {α β : Type}

def isEmpty : Forest α → Bool
  | nil => true
  | cons _ _ _ => false

/-- The labels in depth-first order from left to right. -/
def labels : Forest α → List α
  | nil => []
  | cons a below beside => a :: (below.labels ++ beside.labels)

def size : Forest α → Nat
  | nil => 0
  | cons _ below beside => 1 + below.size + beside.size

def map (f : α → β) : Forest α → Forest β
  | nil => nil
  | cons a below beside => cons (f a) (below.map f) (beside.map f)

def append : Forest α → Forest α → Forest α
  | nil, g => g
  | cons a below beside, g => cons a below (beside.append g)

/-- The labels of the roots. -/
def roots : Forest α → List α
  | nil => []
  | cons a _ beside => a :: beside.roots

/-- The labels without anything below them, from left to right. -/
def leaves : Forest α → List α
  | nil => []
  | cons a below beside => (if below.isEmpty then [a] else below.leaves) ++ beside.leaves

/-- The leaves with no label on the way to them, their own included, that satisfies `cut`. -/
def leavesOutside (cut : α → Bool) : Forest α → List α
  | nil => []
  | cons a below beside =>
      (if cut a then [] else if below.isEmpty then [a] else below.leavesOutside cut) ++
        beside.leavesOutside cut

/-- The first label that satisfies `p`, with the forest below it. -/
def find? (p : α → Bool) : Forest α → Option (α × Forest α)
  | nil => none
  | cons a below beside =>
      if p a then some (a, below)
      else match below.find? p with
        | some found => some found
        | none => beside.find? p

/-- The first label that satisfies `p`, followed by the labels above it up to the root, then by `above`. -/
def trail? (p : α → Bool) (above : List α) : Forest α → Option (List α)
  | nil => none
  | cons a below beside =>
      if p a then some (a :: above)
      else match below.trail? p (a :: above) with
        | some trail => some trail
        | none => beside.trail? p above

/-- Puts `new` behind whatever is directly below each label that satisfies `p`. -/
def graft (p : α → Bool) (new : Forest α) : Forest α → Forest α
  | nil => nil
  | cons a below beside =>
      cons a (if p a then below.append new else graft p new below) (graft p new beside)

/-- Deletes each label that satisfies `p` with everything below it. -/
def prune (p : α → Bool) : Forest α → Forest α
  | nil => nil
  | cons a below beside =>
      if p a then beside.prune p else cons a (below.prune p) (beside.prune p)

/-- Deletes each label that satisfies `p`; what is directly below it takes its place. -/
def splice (p : α → Bool) : Forest α → Forest α
  | nil => nil
  | cons a below beside =>
      if p a then (below.splice p).append (beside.splice p) else cons a (below.splice p) (beside.splice p)

/-- One strand per leaf, from left to right: upward from the leaf, the labels whose leftmost leaf it is. -/
def strands : Forest α → List (List α)
  | nil => []
  | cons a below beside =>
      match below.strands with
      | [] => [a] :: beside.strands
      | strand :: others => (strand ++ [a]) :: (others ++ beside.strands)

/-- The forest of the given trees. -/
def ofTrees : List (Tree α) → Forest α
  | [] => nil
  | t :: ts => cons t.root t.below (ofTrees ts)

end Forest

namespace Tree

variable {α β : Type}

def toForest (t : Tree α) : Forest α :=
  .cons t.root t.below .nil

def labels (t : Tree α) : List α :=
  t.toForest.labels

def size (t : Tree α) : Nat :=
  t.toForest.size

def map (f : α → β) (t : Tree α) : Tree β :=
  ⟨f t.root, t.below.map f⟩

def leaves (t : Tree α) : List α :=
  t.toForest.leaves

/-- The subtree at the first label that satisfies `p`. -/
def find? (p : α → Bool) (t : Tree α) : Option (Tree α) :=
  (t.toForest.find? p).map fun found => ⟨found.1, found.2⟩

/-- The first label that satisfies `p`, followed by the labels above it up to the root. -/
def trail (p : α → Bool) (t : Tree α) : List α :=
  (t.toForest.trail? p []).getD []

/-- The label directly above the first label that satisfies `p`. -/
def parent? (p : α → Bool) (t : Tree α) : Option α :=
  (t.trail p)[1]?

/-- Puts `new` behind whatever is directly below each label that satisfies `p`. -/
def graft (p : α → Bool) (new : Forest α) (t : Tree α) : Tree α :=
  ⟨t.root, if p t.root then t.below.append new else .graft p new t.below⟩

end Tree

end Tableaux
