import Consultation.Main
import Consultation.Proofs.Lookup
import Consultation.Proofs.Answer
import Consultation.Proofs.Derivable
import Consultation.Proofs.Memory
import Consultation.Proofs.Json.RoundTrip
import Consultation.Proofs.Toml.RoundTrip
import Consultation.Proofs.Files.Path
import Consultation.Proofs.Files.Tree
import Consultation.Proofs.Limits.Text
import Consultation.Proofs.Limits.Saving
import Consultation.Proofs.Knowledge.Appearance
import Consultation.Proofs.Knowledge.Dependency
import Consultation.Proofs.Knowledge.Cycles
import Consultation.Proofs.Knowledge.Ranking
import Consultation.Proofs.Knowledge.Document
import Consultation.Proofs.Knowledge.Admission
import Consultation.Proofs.Knowledge.Index
import Consultation.Proofs.Knowledge.Reordering
import Consultation.Proofs.Inference.Decision
import Consultation.Proofs.Inference.Deduction
import Consultation.Proofs.Inference.Demand
import Consultation.Proofs.Inference.Replay
import Consultation.Proofs.Inference.Step
import Consultation.Proofs.Inference.Reachable
import Consultation.Proofs.Inference.Justification
import Consultation.Proofs.Inference.Contest
import Consultation.Proofs.Inference.Propagation
import Consultation.Proofs.Inference.Convergence
import Consultation.Proofs.Inference.Caps
import Consultation.Proofs.Inference.Passes
import Consultation.Proofs.Inference.Progress
import Consultation.Proofs.Inference.Notes
import Consultation.Proofs.Inference.Lockstep
import Consultation.Proofs.Inference.Question
import Consultation.Proofs.Inference.OpenPath
import Consultation.Proofs.Inference.Search
import Consultation.Proofs.Inference.Finality
import Consultation.Proofs.Inference.Dispute
import Consultation.Proofs.Inference.Agreement
import Consultation.Proofs.Inference.Reordering
import Consultation.Proofs.Inference.Account
import Consultation.Proofs.Inference.Guidance
import Consultation.Proofs.Inference.Completion
import Consultation.Proofs.Session.Accepted
import Consultation.Proofs.Session.Answers
import Consultation.Proofs.Session.Reachable
import Consultation.Proofs.Session.Soundness
import Consultation.Proofs.Session.Completeness
import Consultation.Proofs.Session.Dialogue
import Consultation.Proofs.Session.Guidance
import Consultation.Proofs.Session.Retrace
import Consultation.Proofs.Session.Rollback
import Consultation.Proofs.Session.Completion
import Consultation.Proofs.Session.History
import Consultation.Proofs.Session.Journal
import Consultation.Proofs.Session.Phase
import Consultation.Proofs.Session.Procedure
import Consultation.Proofs.Session.Refusal
import Consultation.Proofs.Session.Token
import Consultation.Proofs.Session.Kept
import Consultation.Proofs.Session.Reordering
import Consultation.Proofs.Session.Passes
import Consultation.Proofs.Session.Override
import Consultation.Proofs.Session.Progress
import Consultation.Proofs.Session.Ending
import Consultation.Proofs.Session.Display
import Consultation.Proofs.Session.Hypotheses
import Consultation.Proofs.Session.Rest
import Consultation.Proofs.Session.Caps
import Consultation.Proofs.Session.Restart
import Consultation.Proofs.CommandLine.Listing
import Consultation.Proofs.CommandLine.Dialogue
