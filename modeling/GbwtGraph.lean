import GbwtGraph.HandleGraph
import GbwtGraph.Window
import GbwtGraph.Coverage
import GbwtGraph.Components
import GbwtGraph.PathCover.Machine
import GbwtGraph.PathCover.Steps
import GbwtGraph.PathCover.Safety
import GbwtGraph.PathCover.Termination
import GbwtGraph.PathCover.Walks
import GbwtGraph.PathCover.Seed
import GbwtGraph.PathCover.Counts
import GbwtGraph.PathCover.Gbwt
import GbwtGraph.PathCover.Paths
import GbwtGraph.Minimizer.Position
import GbwtGraph.Minimizer.Kmer
import GbwtGraph.Minimizer.Extract
import GbwtGraph.Minimizer.Symmetry
import GbwtGraph.Minimizer.Index
import GbwtGraph.Minimizer.Probe
import GbwtGraph.Minimizer.Table
import GbwtGraph.Minimizer.Build
