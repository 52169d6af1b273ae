import Treegram.Main
import Treegram.Proofs.Sendable
import Treegram.Proofs.Stacking
import Treegram.Proofs.RoundTrip
import Treegram.Proofs.AnySource
import Treegram.Proofs.Listening
import Treegram.Proofs.Buffers
import Treegram.Buffer.Checked
import Treegram.Proofs.BufferRuns
import Treegram.Proofs.CalmCalls
import Treegram.Proofs.CacheContents
import Treegram.Proofs.CacheInvariant
import Treegram.Proofs.LinkedCaches
import Treegram.Proofs.Evictions
import Treegram.Proofs.Scanning
import Treegram.Proofs.Lifetimes
import Treegram.Proofs.SessionRuns
import Treegram.Proofs.AnsweredRequests
import Treegram.Proofs.StaleBytes
import Treegram.Proofs.RefusedRequests
import Treegram.Proofs.ChannelRuns
import Treegram.Proofs.Arrivals
import Treegram.Proofs.OutOfStep
import Treegram.Proofs.SocketReads
import Treegram.Proofs.ByteFlow
import Treegram.Proofs.EventStream
import Treegram.Proofs.BuiltRequests
import Treegram.Proofs.SentRequests
import Treegram.Proofs.CachedAnswers
import Treegram.Proofs.FailedRequests
import Treegram.Document.Linked
import Treegram.Proofs.Spots
import Treegram.Proofs.LinkedTrees
import Treegram.Proofs.LinkedDocuments
import Treegram.Proofs.DocumentLinks
import Treegram.Proofs.ReadUnits
import Treegram.Proofs.MessageGrammar
import Treegram.Proofs.Strays
import Treegram.Proofs.DecodedChildren
import Treegram.Proofs.DocumentUnits
import Treegram.Proofs.SlotUse
import Treegram.Proofs.DeadNodes
import Treegram.Proofs.Displacements
import Treegram.Proofs.SendingOn
import Treegram.Proofs.EditEffects
import Treegram.Wire.Cursor
import Treegram.Proofs.CursorReading
import Treegram.Proofs.DecodeEffects
import Treegram.Proofs.ReachedDocuments
import Treegram.Document.Comparison
import Treegram.Proofs.Comparisons
import Treegram.Proofs.DocumentSizes
import Treegram.Wire.Sink
import Treegram.Proofs.MessageLengths
import Treegram.Path.Linked
import Treegram.Proofs.ComposedPaths
import Treegram.Proofs.Numerals
import Treegram.Proofs.IntegerReaders
import Treegram.Proofs.FlagTexts
import Treegram.Proofs.PathSyntax
import Treegram.Status.Linked
import Treegram.Proofs.StatusTexts
import Treegram.Text.Abridged
import Treegram.Proofs.AbridgedTexts
import Treegram.Proofs.CodeTexts
import Treegram.Clock.Span
import Treegram.Event.Linked
import Treegram.Proofs.FirstNamed
import Treegram.Proofs.EventTimes
import Treegram.Status.Packed
import Treegram.Proofs.StatusGrades
import Treegram.Proofs.Forecasts
import Treegram.Request.Linked
import Treegram.Proofs.LinkedRequests
import Treegram.Proofs.DraftedRequests
import Treegram.Proofs.GuardedCommands
import Treegram.Proofs.ArgumentLists
import Treegram.Proofs.AcceptedRequests
