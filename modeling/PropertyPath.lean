import PropertyPath.Automaton.Text
import PropertyPath.Graph.Pool
import PropertyPath.Graph.Table
import PropertyPath.Path.Builder
import PropertyPath.Search.Evaluator
import PropertyPath.Proofs.Walk
import PropertyPath.Proofs.Path.Relation
import PropertyPath.Proofs.Outcome
import PropertyPath.Proofs.Path.Converse
import PropertyPath.Proofs.Automaton.Relation
import PropertyPath.Proofs.Automaton.Validity
import PropertyPath.Proofs.Automaton.Nesting
import PropertyPath.Proofs.Reduction.Reduct
import PropertyPath.Proofs.Reduction.Parallel
import PropertyPath.Proofs.Reduction.Compression
import PropertyPath.Proofs.Reduction.Bisimulation
import PropertyPath.Proofs.Reduction.Optimizer
import PropertyPath.Proofs.Reduction.Coarsest
import PropertyPath.Proofs.Reduction.Shrinking
import PropertyPath.Proofs.Reduction.NormalForm
import PropertyPath.Proofs.Reduction.Pursuit
import PropertyPath.Proofs.Reduction.Recompression
import PropertyPath.Proofs.Reduction.Idempotence
import PropertyPath.Proofs.Reduction.Trim
import PropertyPath.Proofs.Path.Words
import PropertyPath.Proofs.Path.Plain
import PropertyPath.Proofs.Path.Marking
import PropertyPath.Proofs.Path.Mirror
import PropertyPath.Proofs.Automaton.Shapes
import PropertyPath.Proofs.Automaton.Position
import PropertyPath.Proofs.Automaton.Mirror
import PropertyPath.Proofs.Graph.Store
import PropertyPath.Proofs.Graph.Answers
import PropertyPath.Proofs.Graph.Rows
import PropertyPath.Proofs.Search.Hop
import PropertyPath.Proofs.Search.Explore
import PropertyPath.Proofs.Search.Run
import PropertyPath.Proofs.Search.Origins
import PropertyPath.Proofs.Automaton.Compiled
import PropertyPath.Proofs.Search.Evaluator
import PropertyPath.Proofs.Search.Distinct
import PropertyPath.Proofs.Search.Expansion
import PropertyPath.Proofs.Search.Parts
import PropertyPath.Proofs.Search.Stage
import PropertyPath.Proofs.Search.Termination
import PropertyPath.Proofs.Search.Bounds
import PropertyPath.Proofs.Search.Early
import PropertyPath.Proofs.Search.Contains
import PropertyPath.Proofs.Search.Longer
import PropertyPath.Proofs.Search.Disturbed
import PropertyPath.Proofs.Search.Sweep
import PropertyPath.Proofs.Search.Levels
import PropertyPath.Proofs.Search.Depth
import PropertyPath.Proofs.Search.Modes
import PropertyPath.Proofs.Search.Directions
import PropertyPath.Proofs.Search.Alike
import PropertyPath.Proofs.Search.Announced
import PropertyPath.Proofs.Search.Order
import PropertyPath.Proofs.Automaton.Inside
import PropertyPath.Proofs.Search.Relaxed
import PropertyPath.Proofs.Search.Faults
import PropertyPath.Proofs.Search.Limits
import PropertyPath.Proofs.Search.Shortest
import PropertyPath.Proofs.Search.Optimized
import PropertyPath.Proofs.Path.Formed
import PropertyPath.Proofs.Path.Accepted
import PropertyPath.Proofs.Automaton.Outside
import PropertyPath.Proofs.Automaton.Finishing
import PropertyPath.Proofs.Automaton.Compiling
import PropertyPath.Proofs.Automaton.Openings
import PropertyPath.Proofs.Path.Factors
import PropertyPath.Proofs.Path.Attributes
import PropertyPath.Proofs.Automaton.Trim
import PropertyPath.Proofs.Path.NormalForm
import PropertyPath.Proofs.Search.Joined
import PropertyPath.Proofs.Graph.Sharing
import PropertyPath.Proofs.Search.Closings
import PropertyPath.Proofs.Search.Refusals
import PropertyPath.Proofs.Automaton.Making
import PropertyPath.Proofs.Search.Canonical
import PropertyPath.Proofs.Path.Listing
import PropertyPath.Proofs.Path.Unfolding
import PropertyPath.Proofs.Path.Renumbering
import PropertyPath.Proofs.Path.Conversion
