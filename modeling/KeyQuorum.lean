import KeyQuorum.Proofs.Distribution.Abort
import KeyQuorum.Proofs.Distribution.Acknowledgement
import KeyQuorum.Proofs.Distribution.Announcement
import KeyQuorum.Proofs.Distribution.Conservation
import KeyQuorum.Proofs.Distribution.DealerKey
import KeyQuorum.Proofs.Distribution.Freshness
import KeyQuorum.Proofs.Distribution.Grammar
import KeyQuorum.Proofs.Distribution.Outcome
import KeyQuorum.Proofs.Distribution.Progress
import KeyQuorum.Proofs.Distribution.Repeats
import KeyQuorum.Proofs.Distribution.Reports
import KeyQuorum.Proofs.Distribution.Turns
import KeyQuorum.Proofs.Distribution.Verdict
import KeyQuorum.Proofs.Distribution.Waiting
import KeyQuorum.Proofs.Event.Difficulty
import KeyQuorum.Proofs.Event.Identity
import KeyQuorum.Proofs.Event.Mining
import KeyQuorum.Proofs.Key.Agreement
import KeyQuorum.Proofs.Message.Capacity
import KeyQuorum.Proofs.Message.Opening
import KeyQuorum.Proofs.Message.RoundTrip
import KeyQuorum.Proofs.Rehearsal.Runs
import KeyQuorum.Proofs.Sharing.Binding
import KeyQuorum.Proofs.Sharing.Canonical
import KeyQuorum.Proofs.Sharing.Hiding
import KeyQuorum.Proofs.Sharing.Lengths
import KeyQuorum.Proofs.Sharing.Numbering
import KeyQuorum.Proofs.Sharing.Shortfall
import KeyQuorum.Proofs.Sharing.Survival
import KeyQuorum.Proofs.Sharing.Threshold
import KeyQuorum.Proofs.Sharing.Verification
