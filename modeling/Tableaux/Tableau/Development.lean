import Tableaux.Tableau.Closure

/-!
Development of a node: the result of its rule is put below every open leaf under the node, and the branches
through the node are checked for contradictions. One term instantiates a quantified node on all branches. A node
that needs one instance only, or none, is ticked and leaves the worklist.
-/

namespace Tableaux

/-- A path of new nodes developed from `origin`, numbered from `id` on. -/
def Forest.ofChain (origin : Nat) (id : Nat) : List Signed → Forest Node
  | [] => .nil
  | s :: chain => .cons (.ofSigned id s (some origin)) (ofChain origin (id + 1) chain) .nil

/-- The new nodes that a rule puts below one leaf, numbered from `id` on. -/
def Expansion.toForest (origin : Nat) (id : Nat) : Expansion → Forest Node
  | linear chain => .ofChain origin id chain
  | branching left right =>
      (Forest.ofChain origin id left).append (.ofChain origin (id + left.length) right)

namespace Tableau

/-- A term that is no term of the tableau and occurs in no node ever made. -/
def freshTerm (t : Tableau) : Term :=
  .freshIndexed t.options.termStem (t.terms ++ t.names)

/-- The term to instantiate a quantified node with. One that is asked for is taken. A reusable node gets the oldest
term that it has not been instantiated with; every other node, and a reusable one without such a term, gets a
fresh term. -/
def termFor (t : Tableau) (n : Node) : Option Term → Term
  | some term => term
  | none =>
      if n.kind.isReusable then (t.terms.find? fun s => !n.instances.contains s).getD t.freshTerm
      else t.freshTerm

/-- Enters a term among the terms of the tableau and among the instances of a node. -/
def instantiate (t : Tableau) (id : Nat) (term : Term) : Tableau :=
  { t with
    terms := Term.enter t.terms term
    tree := t.tree.map fun n => if n.id = id then { n with instances := Term.enter n.instances term } else n }

/-- Marks a node as developed and counts the branches that this opened. -/
def tick (t : Tableau) (id : Nat) (opened : Nat) : Tableau :=
  { t with
    tree := t.tree.map fun n => if n.id = id then { n with ticked := true } else n
    worklist := t.worklist.erase id
    openBranches := t.openBranches + opened }

/-- Puts the result of a rule below a leaf. -/
def extend (t : Tableau) (origin : Nat) (e : Expansion) (leaf : Nat) : Tableau :=
  t.attach leaf (e.toForest origin t.slots)

/-- Applies the rule of a node, with a chosen term if it is quantified, below the given leaves. The answer is
`false` if there is no rule. -/
def applyRule (t : Tableau) (n : Node) (leaves : List Nat) (term : Option Term) : Bool × Tableau :=
  let term := if n.kind.isQuantified then some (t.termFor n term) else none
  let t := match term with
    | some term => t.instantiate n.id term
    | none => t
  match n.signed.expansion term with
  | none => (false, t)
  | some e =>
      let t := leaves.foldl (fun t leaf => t.extend n.id e leaf) t
      (true, if n.kind.isReusable then t else t.tick n.id (e.branchDelta * leaves.length))

/-- Develops a node. The answer is `false` if there is nothing to do: the node is ticked, or no branch through it
is open. A given term instantiates a quantified node and is ignored otherwise. -/
def develop (t : Tableau) (id : Nat) (term : Option Term) : Except Refusal Bool × Tableau :=
  match t.node id with
  | .error e => (.error e, t)
  | .ok n =>
      if n.ticked then (.ok false, t)
      else match t.openLeavesBelow id with
        | [] => (.ok false, t)
        | leaves => match t.applyRule n leaves term with
            | (false, t) => (.ok false, t)
            | (true, t) => (.ok true, (t.closeBranches id).1)

end Tableau

end Tableaux
