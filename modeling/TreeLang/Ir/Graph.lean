import TreeLang.Ir.Basic

namespace TreeLang.Ir

/-- The control-flow graph of a function: an edge for each target of each terminator, whether or not a
block of that number exists. -/
structure Graph where
  /-- The targets of each block, in the order of the blocks. -/
  edges : List (Nat × List Nat)
  entry : Nat

def Function.graph (f : Function) : Graph :=
  ⟨f.blocks.map fun b => (b.id, b.terminator.successors), f.entry⟩

namespace Graph

def successors (g : Graph) (block : Nat) : List Nat :=
  (g.edges.lookup block).getD []

/-- One entry for each edge into the block. -/
def predecessors (g : Graph) (block : Nat) : List Nat :=
  g.edges.flatMap fun (source, targets) => (targets.filter (· == block)).map fun _ => source

/-- Visits the queue in order and appends the targets of what it visits. -/
def search (g : Graph) : Nat → List Nat → List Nat → List Nat
  | 0, _, seen => seen
  | _ + 1, [], seen => seen
  | fuel + 1, b :: queue, seen =>
    if b ∈ seen then g.search fuel queue seen
    else g.search fuel (queue ++ g.successors b) (seen ++ [b])

/-- Every number that is queued is the entry or the target of an edge of a block visited once. -/
def steps (g : Graph) : Nat :=
  (g.edges.flatMap (·.2)).length + 2

/-- The numbers that some path of edges from the entry leads to, the entry among them. -/
def reachable (g : Graph) : List Nat :=
  g.search g.steps [g.entry] []

def isReachable (g : Graph) (block : Nat) : Bool :=
  block ∈ g.reachable

/-- A depth-first search: what it has visited, and the headers it has found. -/
structure Walk where
  seen : List Nat
  headers : List Nat

def Walk.mark (w : Walk) (header : Nat) : Walk :=
  if header ∈ w.headers then w else { w with headers := w.headers ++ [header] }

/-- Visits `block` at the end of `path`, which holds the blocks above it, innermost first. -/
def descend (g : Graph) : Nat → List Nat → Nat → Walk → Walk
  | 0, _, _, w => w
  | fuel + 1, path, block, w =>
    (g.successors block).foldl (fun w target =>
      if target ∈ block :: path then w.mark target
      else if target ∈ w.seen then w
      else g.descend fuel (block :: path) target w)
      { w with seen := block :: w.seen }

/-- A path has no block twice, and only its last block may be missing from the graph. -/
def loopHeaders (g : Graph) : List Nat :=
  (g.descend (g.edges.length + 1) [] g.entry ⟨[], []⟩).headers

end Graph

end TreeLang.Ir
