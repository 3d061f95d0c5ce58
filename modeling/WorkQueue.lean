import WorkQueue.Config.Variables
import WorkQueue.Config.Json
import WorkQueue.Config.Setting
import WorkQueue.Inspector
import WorkQueue.Execution.Solo
import WorkQueue.Store.Memory
import WorkQueue.Store.Table
import WorkQueue.Store.Faulty
import WorkQueue.Recorder.History
import WorkQueue.Queue.System
import WorkQueue.Proofs.Ledger.Operations
import WorkQueue.Proofs.Ledger.SafePrefix
import WorkQueue.Proofs.Execution.Course
import WorkQueue.Proofs.Store.Instances
import WorkQueue.Proofs.Consumer.Reading
import WorkQueue.Proofs.Consumer.Flow
import WorkQueue.Proofs.Cluster.Operations
import WorkQueue.Proofs.Queue.World
import WorkQueue.Proofs.Queue.Lanes
import WorkQueue.Proofs.Queue.Steps
import WorkQueue.Proofs.Queue.Processes
import WorkQueue.Proofs.Queue.Delivery
import WorkQueue.Proofs.Consumer.Resume
import WorkQueue.Proofs.Cluster.Handover
import WorkQueue.Proofs.Consumer.Turns
import WorkQueue.Proofs.Cluster.Calls
import WorkQueue.Proofs.Store.Records
import WorkQueue.Proofs.Cluster.Tenure
import WorkQueue.Proofs.Store.Groups
import WorkQueue.Proofs.Store.MemoryGroups
import WorkQueue.Proofs.Store.TableGroups
import WorkQueue.Proofs.Consumer.Shares
import WorkQueue.Proofs.Cluster.Agreement
import WorkQueue.Proofs.Consumer.Alone
import WorkQueue.Proofs.Cluster.Sole
import WorkQueue.Proofs.Ledger.Appended
import WorkQueue.Proofs.Queue.Inversion
import WorkQueue.Proofs.Queue.Staff
import WorkQueue.Proofs.Queue.Passes
import WorkQueue.Proofs.Queue.Stable
import WorkQueue.Proofs.Queue.ExactlyOnce
import WorkQueue.Proofs.Consumer.Enrolled
import WorkQueue.Proofs.Cluster.Enrolment
import WorkQueue.Proofs.Queue.Level
import WorkQueue.Proofs.Queue.Shutdown
import WorkQueue.Proofs.Json.Text
import WorkQueue.Proofs.Json.Strings
import WorkQueue.Proofs.Json.Numbers
import WorkQueue.Proofs.Json.Numerals
import WorkQueue.Proofs.Json.ReadBack
import WorkQueue.Proofs.Json.Passing
import WorkQueue.Proofs.Json.Records
import WorkQueue.Proofs.Json.Readings
import WorkQueue.Proofs.Envelope.RoundTrip
import WorkQueue.Proofs.Envelope.Nesting
import WorkQueue.Proofs.Execution.Verdict
import WorkQueue.Proofs.Execution.Lineage
import WorkQueue.Proofs.Store.Patient
import WorkQueue.Proofs.Store.SameLogs
import WorkQueue.Proofs.Store.SameGroups
import WorkQueue.Proofs.Store.Interchange
import WorkQueue.Proofs.Cluster.Pace
import WorkQueue.Proofs.Cluster.Attendance
import WorkQueue.Proofs.Queue.Acting
import WorkQueue.Proofs.Queue.Rhythm
import WorkQueue.Proofs.Queue.Presence
import WorkQueue.Proofs.Queue.Membership
import WorkQueue.Proofs.Store.Topics
import WorkQueue.Proofs.Cluster.KeyAffinity
import WorkQueue.Proofs.Execution.States
import WorkQueue.Proofs.Queue.Account
import WorkQueue.Proofs.Queue.Accounting
import WorkQueue.Proofs.Queue.InFlight
import WorkQueue.Proofs.Queue.Outcomes
import WorkQueue.Proofs.Store.Noting
import WorkQueue.Proofs.Queue.Recorded
import WorkQueue.Proofs.Store.Silence
import WorkQueue.Proofs.Backoff.Attempts
import WorkQueue.Proofs.Intake.Steps
import WorkQueue.Proofs.Intake.Annals
import WorkQueue.Proofs.Intake.Order
import WorkQueue.Proofs.Intake.Waiting
import WorkQueue.Proofs.Intake.Closing
import WorkQueue.Proofs.Ledger.Schedules
import WorkQueue.Proofs.Consumer.Committing
import WorkQueue.Proofs.Config.Variables
import WorkQueue.Proofs.Config.Validity
import WorkQueue.Proofs.Config.RoundTrip
import WorkQueue.Proofs.Backoff.Delays
import WorkQueue.Proofs.Ledger.Snapshots
import WorkQueue.Proofs.Store.Thorough
import WorkQueue.Proofs.Consumer.Fills
import WorkQueue.Proofs.Consumer.Moments
import WorkQueue.Proofs.Consumer.Fairness
