import Eventual.Data
import Eventual.Outcome
import Eventual.Routine
import Eventual.Cell.Routine
import Eventual.Queue.Lemmas
import Eventual.Completion.Protocol
import Eventual.Promise.Polling
import Eventual.Promise.Policy
import Eventual.Script.Syntax
import Eventual.Text.Describe
import Eventual.World.Lifetime
import Eventual.World.Describe
import Eventual.Machine.Step
import Eventual.Machine.Run
import Eventual.World.Report
import Eventual.Race.Committers
import Eventual.Race.Producers
import Eventual.Race.Registrars
import Eventual.Race.Waiters
import Eventual.Proofs.Interleaving.Outline
import Eventual.Proofs.Queue.Locks
import Eventual.Proofs.Queue.Fifo
import Eventual.Proofs.Machine.ExactlyOnce
import Eventual.Proofs.Interleaving.NoneLost
import Eventual.Proofs.Interleaving.Polls
import Eventual.Proofs.Cell.OneWinner
import Eventual.Proofs.Machine.NothingLeft
import Eventual.Proofs.Interleaving.Overtaking
import Eventual.Proofs.Interleaving.WakeUps
import Eventual.Proofs.Machine.ConsumedOnce
import Eventual.Proofs.Machine.OneOutcome
import Eventual.Proofs.World.References
import Eventual.Proofs.Machine.Moves
import Eventual.Proofs.Machine.Deferreds
import Eventual.Proofs.Machine.FirstSettles
import Eventual.Proofs.Machine.Returns
import Eventual.Proofs.Machine.Isolation
import Eventual.Proofs.Machine.BeforeOrAfter
import Eventual.Proofs.Reflection.Calls
import Eventual.Proofs.Reflection.Worlds
import Eventual.Proofs.Reflection.Begin
import Eventual.Proofs.Reflection.Runs
import Eventual.Proofs.Policy.Runs
import Eventual.Proofs.Machine.QueuesAsLists
import Eventual.Proofs.Machine.Resumption
import Eventual.Proofs.Machine.PollHistories
import Eventual.Proofs.Queue.Nesting
import Eventual.Proofs.Machine.Chains
import Eventual.Proofs.World.Weights
import Eventual.Proofs.Machine.Termination
import Eventual.Proofs.Machine.Tallies
import Eventual.Proofs.Machine.Leftovers
import Eventual.Proofs.Queue.NodeGraph
