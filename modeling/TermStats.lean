import TermStats.Proofs.Term.MergeResult
import TermStats.Proofs.Wire.RoundTrip
import TermStats.Proofs.Output.Records
import TermStats.Proofs.Run.Runs
import TermStats.Proofs.Term.CursorLength
import TermStats.Run.Runner
import TermStats.Run.SettingsJson
import TermStats.Shard.Directory
import TermStats.Shard.Summary
import TermStats.Wire.Stream
import TermStats.Proofs.Run.Delivered
import TermStats.Proofs.Run.Results
import TermStats.Proofs.Run.Sockets
import TermStats.Proofs.Term.Partition
import TermStats.Proofs.Shard.SummaryContents
import TermStats.Proofs.Term.MaximalRuns
import TermStats.Proofs.Run.Readable
import TermStats.Proofs.Run.Outcome
import TermStats.Proofs.Term.MergeFaults
import TermStats.Proofs.Shard.Provider
import TermStats.Proofs.Shard.ReadBack
import TermStats.Proofs.Wire.Calls
import TermStats.Proofs.Wire.Decoded
import TermStats.Proofs.Run.Breaking
import TermStats.Proofs.Output.Grammar
import TermStats.Proofs.Output.Recovery
import TermStats.Proofs.Term.Listed
import TermStats.Proofs.Run.Schedule
import TermStats.Proofs.Run.Noninterference
import TermStats.Proofs.Run.Aggregation
import TermStats.Proofs.Run.Failures
import TermStats.Proofs.Term.CursorGrammar
import TermStats.Proofs.Term.MergeEquality
import TermStats.Proofs.Shard.PostingOffsets
import TermStats.Proofs.Term.Rewriting
import TermStats.Proofs.Output.Blocks
import TermStats.Proofs.Run.Workers
import TermStats.Proofs.Storage.CacheHistory
import TermStats.Proofs.Term.CursorEquality
import TermStats.Proofs.Varint.Sequence
import TermStats.Proofs.Varint.Accepted
import TermStats.Proofs.Storage.Cells
