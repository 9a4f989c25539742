import MemoGraph.Script.Session
import MemoGraph.Proofs.Computation.Requests
import MemoGraph.Proofs.Digraph.BreadthFirst
import MemoGraph.Proofs.Digraph.CyclicComponents
import MemoGraph.Proofs.Evaluator.Blaming
import MemoGraph.Proofs.Evaluator.Callbacks
import MemoGraph.Proofs.Evaluator.Cancellation
import MemoGraph.Proofs.Evaluator.Chronicles
import MemoGraph.Proofs.Evaluator.Cycles
import MemoGraph.Proofs.Evaluator.Freshness
import MemoGraph.Proofs.Evaluator.Invalidations
import MemoGraph.Proofs.Evaluator.Necessity
import MemoGraph.Proofs.Evaluator.Pruning
import MemoGraph.Proofs.Evaluator.Records
import MemoGraph.Proofs.Evaluator.Restarts
import MemoGraph.Proofs.Evaluator.Revalidation
import MemoGraph.Proofs.Evaluator.Snapshots
import MemoGraph.Proofs.Evaluator.Versions
import MemoGraph.Proofs.Evaluator.Wakeups
import MemoGraph.Proofs.GroupLists
import MemoGraph.Proofs.Metadata.Families
