import SofaBuffers.Types
import SofaBuffers.Resumable
import SofaBuffers.Varint
import SofaBuffers.Zigzag
import SofaBuffers.Utf8
import SofaBuffers.Core
import SofaBuffers.Visitor
import SofaBuffers.Binding
import SofaBuffers.Run
import SofaBuffers.Abreast
import SofaBuffers.Binder
import SofaBuffers.Built
import SofaBuffers.Claiming
import SofaBuffers.Collectors
import SofaBuffers.Course
import SofaBuffers.Decoder.Feed
import SofaBuffers.Decoder.Header
import SofaBuffers.Decoder.State
import SofaBuffers.Decoder.Values
import SofaBuffers.Decoder.Varints
import SofaBuffers.Defaults
import SofaBuffers.Doubles
import SofaBuffers.Encoder.Bytes
import SofaBuffers.Encoder.Courses
import SofaBuffers.Encoder.Elements
import SofaBuffers.Encoder.Fit
import SofaBuffers.Encoder.Framing
import SofaBuffers.Encoder.Inline
import SofaBuffers.Encoder.Output
import SofaBuffers.Encoder.Pruning
import SofaBuffers.Encoder.Reentry
import SofaBuffers.Encoder.Refine
import SofaBuffers.Encoder.Refusal
import SofaBuffers.Encoder.State
import SofaBuffers.Encoder.Sticky
import SofaBuffers.Encoder.Streaming
import SofaBuffers.Encoder.Writers
import SofaBuffers.Encoder.Written
import SofaBuffers.Farray
import SofaBuffers.FloatArrays
import SofaBuffers.Format.Canonical
import SofaBuffers.Format.Grammar
import SofaBuffers.Format.Marks
import SofaBuffers.Native.Arrays
import SofaBuffers.Native.Declared
import SofaBuffers.Native.Decoder
import SofaBuffers.Native.Digits
import SofaBuffers.Native.Encoder
import SofaBuffers.Native.Feeds
import SofaBuffers.Native.Header
import SofaBuffers.Native.Mirror
import SofaBuffers.Native.Parity
import SofaBuffers.Native.Pipeline
import SofaBuffers.Native.Reads
import SofaBuffers.Native.Rows
import SofaBuffers.Native.Sessions
import SofaBuffers.Native.Tables
import SofaBuffers.Native.Twins
import SofaBuffers.Native.Utf8
import SofaBuffers.Native.Values
import SofaBuffers.Native.Varint
import SofaBuffers.Native.Visits
import SofaBuffers.Native.Walks
import SofaBuffers.Native.Writers
import SofaBuffers.Singles
import SofaBuffers.Stream.Bounds
import SofaBuffers.Stream.Capping
import SofaBuffers.Stream.Chunking
import SofaBuffers.Stream.Kept
import SofaBuffers.Stream.Recorder
import SofaBuffers.Stream.Retry
import SofaBuffers.Stream.Room
import SofaBuffers.Stream.RoundTrip
import SofaBuffers.Stream.Safe
import SofaBuffers.Stream.Scoping
import SofaBuffers.Stream.Skipping
import SofaBuffers.Stream.Span
import SofaBuffers.Stream.Transcode
import SofaBuffers.Stream.Verdict
import SofaBuffers.Stream.Views
import SofaBuffers.Tandem
import SofaBuffers.Walk.Agree
import SofaBuffers.Walk.Buffer
import SofaBuffers.Walk.Caps
import SofaBuffers.Walk.Chunk
import SofaBuffers.Walk.Declined
import SofaBuffers.Walk.Drive
import SofaBuffers.Walk.Follows
import SofaBuffers.Walk.Header
import SofaBuffers.Walk.Heal
import SofaBuffers.Walk.Lead
import SofaBuffers.Walk.Licence
import SofaBuffers.Walk.Licensed
import SofaBuffers.Walk.Marks
import SofaBuffers.Walk.Meaning
import SofaBuffers.Walk.Plain
import SofaBuffers.Walk.Plan
import SofaBuffers.Walk.Prepare
import SofaBuffers.Walk.Progress
import SofaBuffers.Walk.Readers
import SofaBuffers.Walk.Reads
import SofaBuffers.Walk.Ready
import SofaBuffers.Walk.Refine
import SofaBuffers.Walk.Rejects
import SofaBuffers.Walk.Rows
import SofaBuffers.Walk.Scopes
import SofaBuffers.Walk.Session
import SofaBuffers.Walk.Short
import SofaBuffers.Walk.Step
import SofaBuffers.Walk.Tables
import SofaBuffers.Walk.Token
import SofaBuffers.Walk.Told
import SofaBuffers.Walk.View
import SofaBuffers.Walk.Visits
import SofaBuffers.Walk.Welcome
import SofaBuffers.Walk.Whole
import SofaBuffers.Walk.Widths
import SofaBuffers.Walk.Within
import SofaBuffers.Worklist
