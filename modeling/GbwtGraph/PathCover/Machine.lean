import GbwtGraph.Coverage
import GbwtGraph.Window
import GbwtGraph.Components

/-! # `generic_path_cover<SimpleCoverage>`

The loop over the `n` paths of one component runs as a machine that stops at the places of the
code listed in `Loc`; `step` runs the code from one of them to the next. A run stops with a
`Fault` where the code would fail an assert or have undefined behaviour.
-/

namespace GbwtGraph

instance instDecidableEqExcept {ε α : Type} [DecidableEq ε] [DecidableEq α] :
    DecidableEq (Except ε α)
  | .error e, .error e' => decidable_of_iff (e = e') (by simp)
  | .ok a, .ok a' => decidable_of_iff (a = a') (by simp)
  | .error _, .ok _ => isFalse (by simp)
  | .ok _, .error _ => isFalse (by simp)

/-- `PATH_COVER_MIN_K` of `path_cover.h`, which is not among the sources: the spec's two. -/
def pathCoverMinK : Nat := 2

/-- Where the code would fail an assert or have undefined behaviour. -/
inductive Fault where
  | findFirst
  | window
  | unassignedBest
  | empty
  | outsideFound
  deriving DecidableEq, Repr

inductive Loc where
  /-- The test of the `for` loop over the paths (line 174). -/
  | seed
  /-- The test of the `while` loop (line 193). -/
  | test
  /-- Extend forward (lines 206-234). -/
  | forward
  /-- Extend backward (lines 236-263). -/
  | backward
  /-- Insert the path (lines 266-280). -/
  | insert
  /-- All `n` paths inserted. -/
  | done
  deriving DecidableEq, Repr

/-- The variables of the loop over the paths; `best` is `none` until assigned. -/
structure CoverState (H : Type) where
  nodeCoverage : List (Int × Nat)
  pathCoverage : List H → Nat
  i : Nat
  path : List H
  forwardSuccess : Bool
  backwardSuccess : Bool
  best : Option H
  paths : List (List H)
  loc : Loc

variable {H : Type} [LinearOrder H]

/-- Before the first path: the component's nodes at `no_coverage()`, in search order. -/
def CoverState.init (component : List Int) : CoverState H where
  nodeCoverage := component.map fun id => (id, noCoverage)
  pathCoverage _ := 0
  i := 0
  path := []
  forwardSuccess := true
  backwardSuccess := true
  best := none
  paths := []
  loc := .seed

variable (G : HandleGraph H) (S : StdSort (Int × Nat)) (n k : Nat)

/-- Lines 176-187: seed at the front of the sorted nodes, increment the back, sort by id. -/
def choosePath (s : CoverState H) : Except Fault (CoverState H) := do
  let sorted := S.sort givePriorityNode s.nodeCoverage
  let some front := sorted.head? | throw .empty
  let nodeCoverage := S.sort idLess (sorted.modify increaseCoverageNode (sorted.length - 1))
  pure { s with
    nodeCoverage := nodeCoverage, path := [G.getHandle front.1 false], forwardSuccess := true,
    backwardSuccess := true, loc := .test }

/-- Line 193. A new iteration declares `best` without assigning it. -/
def loopTest (s : CoverState H) : CoverState H :=
  if (s.forwardSuccess || s.backwardSuccess) && s.path.length < s.nodeCoverage.length then
    { s with best := none, loc := .forward }
  else { s with loc := .insert }

/-- Lines 212-221 and 242-251: the coverage of a candidate's node, or of its window. -/
def candidateCoverage (window : List H → H → Nat → Option (List H)) (s : CoverState H)
    (next : H) : Except Fault Nat :=
  if s.path.length + 1 < k then do
    let some i := findFirst s.nodeCoverage (G.getId next) | throw .findFirst
    pure s.nodeCoverage[i].2
  else do
    let some w := window s.path next k | throw .window
    pure (s.pathCoverage w)

/-- `update_best` over the candidates, from `worst_coverage()` and the `best` held. -/
def chooseBest (window : List H → H → Nat → Option (List H)) (s : CoverState H)
    (candidates : List H) : Except Fault (Nat × Option H) :=
  candidates.foldlM (fun best next => do
    let coverage ← candidateCoverage G k window s next
    pure (updateBest best coverage next)) (worstCoverage, s.best)

/-- `increase_coverage(path_coverage[window])`; `operator[]` starts an absent window at 0. -/
def increasePathCoverage (pathCoverage : List H → Nat) (w : List H) : List H → Nat :=
  Function.update pathCoverage w (increaseCoverage (pathCoverage w))

/-- Lines 225-231 and 255-261: the chosen handle's window and node go up by one. -/
def increaseCoverages (window : List H → H → Nat → Option (List H)) (s : CoverState H)
    (best : H) : Except Fault ((List H → Nat) × List (Int × Nat)) := do
  let pathCoverage ←
    if k ≤ s.path.length + 1 then do
      let some w := window s.path best k | throw .window
      pure (increasePathCoverage s.pathCoverage w)
    else pure s.pathCoverage
  let some i := findFirst s.nodeCoverage (G.getId best) | throw .findFirst
  pure (pathCoverage, s.nodeCoverage.modify increaseCoverageNode i)

/-- Lines 206-234, with the `break` once the path has as many handles as `|C|`. -/
def extendForward (s : CoverState H) : Except Fault (CoverState H) := do
  let some back := s.path.getLast? | throw .empty
  let candidates := G.followEdges back false
  let (_, best) ← chooseBest G k (forwardWindow G) s candidates
  if candidates.isEmpty then
    pure { s with forwardSuccess := false, best := best, loc := .backward }
  else do
    let some b := best | throw .unassignedBest
    let (pathCoverage, nodeCoverage) ← increaseCoverages G k (forwardWindow G) s b
    let path := s.path ++ [b]
    pure { s with
      pathCoverage := pathCoverage, nodeCoverage := nodeCoverage, path := path,
      forwardSuccess := true, best := best,
      loc := if nodeCoverage.length ≤ path.length then .insert else .backward }

/-- Lines 236-263; `best` starts from what the forward extension left. -/
def extendBackward (s : CoverState H) : Except Fault (CoverState H) := do
  let some front := s.path.head? | throw .empty
  let candidates := G.followEdges front true
  let (_, best) ← chooseBest G k (backwardWindow G) s candidates
  if candidates.isEmpty then
    pure { s with backwardSuccess := false, best := best, loc := .test }
  else do
    let some b := best | throw .unassignedBest
    let (pathCoverage, nodeCoverage) ← increaseCoverages G k (backwardWindow G) s b
    pure { s with
      pathCoverage := pathCoverage, nodeCoverage := nodeCoverage, path := b :: s.path,
      backwardSuccess := true, best := best, loc := .test }

/-- Lines 266-280: the path goes to the builder, and the deque goes out of scope. -/
def insertPath (s : CoverState H) : CoverState H :=
  { s with paths := s.paths ++ [s.path], path := [], i := s.i + 1, loc := .seed }

def step (s : CoverState H) : Except Fault (CoverState H) :=
  match s.loc with
  | .seed => if s.i < n then choosePath G S s else pure { s with loc := .done }
  | .test => pure (loopTest s)
  | .forward => extendForward G k s
  | .backward => extendBackward G k s
  | .insert => pure (insertPath s)
  | .done => pure s

def run : Nat → CoverState H → Except Fault (CoverState H)
  | 0, s => pure s
  | fuel + 1, s => if s.loc = .done then pure s else step G S n k s >>= run fuel

def coverComponent (component : List Int) : Except Fault (List (List H)) :=
  CoverState.paths <$> run G S n k (n * (3 * component.length + 1) + 1) (CoverState.init component)

inductive Reachable (component : List Int) : CoverState H → Prop
  | init : Reachable component (CoverState.init component)
  | step {s s' : CoverState H} : Reachable component s → step G S n k s = .ok s' →
      Reachable component s'

/-! ## The whole graph -/

/-- `gbwt::Node::encode`. -/
def nodeEncode (id : Int) (isReverse : Bool) : Nat := 2 * id.toNat + if isReverse then 1 else 0

/-- What `generic_path_cover` gives the GBWT builder: paths as node codes, names, metadata. -/
structure PathCoverGBWT where
  paths : List (List Nat)
  names : List (Nat × Nat × Nat × Nat)
  samples : Nat
  contigs : Nat
  haplotypes : Nat
  deriving DecidableEq, Repr

def PathCoverGBWT.empty : PathCoverGBWT := ⟨[], [], 0, 0, 0⟩

/-- Lines 267-280 for the paths of one component. -/
def insertComponent (gbwt : PathCoverGBWT) (contig : Nat) (paths : List (List H)) :
    PathCoverGBWT :=
  { gbwt with
    paths := gbwt.paths ++ paths.map (List.map fun h => nodeEncode (G.getId h) (G.getIsReverse h))
    names := gbwt.names ++ (List.range paths.length).map fun i => (i, contig, 0, 0) }

def genericPathCover : Except Fault PathCoverGBWT :=
  if G.getNodeCount = 0 ∨ n = 0 then pure .empty
  else if k < pathCoverMinK then pure .empty
  else if G.minNodeId < 1 then pure .empty
  else do
    let some components := weaklyConnectedComponents G | throw .outsideFound
    let gbwt ← components.enum.foldlM (fun gbwt (contig, component) => do
      let paths ← coverComponent G S n k component
      pure (insertComponent G gbwt contig paths)) PathCoverGBWT.empty
    pure { gbwt with samples := n, contigs := components.length, haplotypes := n }

def pathCoverGbwt : Except Fault PathCoverGBWT := genericPathCover G S n k

end GbwtGraph
