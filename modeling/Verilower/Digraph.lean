namespace Verilower.Digraph

/-- Depth-first walk from `node`: what is reached joins `seen` in the order of the first visit. Each
recursive call has a node more in `seen`, so the number of nodes is enough fuel. -/
def visit (next : Nat → List Nat) : (fuel : Nat) → (seen : List Nat) → (node : Nat) → List Nat
  | 0, seen, _ => seen
  | fuel + 1, seen, node =>
    if seen.contains node then seen else (next node).foldl (visit next fuel) (seen ++ [node])

/-- The nodes reachable from `node`, itself first, in the order of a depth-first walk through a
graph of `size` nodes. -/
def preorder (size : Nat) (next : Nat → List Nat) (node : Nat) : List Nat :=
  visit next (size + 1) [] node

/-- Whether some node below `size` lies on a cycle. -/
def hasCycle (size : Nat) (next : Nat → List Nat) : Bool :=
  (List.range size).any fun node =>
    (next node).any fun succ => (preorder size next succ).contains node

end Verilower.Digraph
