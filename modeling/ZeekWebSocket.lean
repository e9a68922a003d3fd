import ZeekWebSocket.Library.Outcome
import ZeekWebSocket.Library.Sorted
import ZeekWebSocket.Library.Text
import ZeekWebSocket.Library.Json
import ZeekWebSocket.Library.OrderCode
import ZeekWebSocket.Library.Fifo
import ZeekWebSocket.Library.Run
import ZeekWebSocket.Library.Rounding
import ZeekWebSocket.Spec.Time
import ZeekWebSocket.Spec.Value
import ZeekWebSocket.Spec.Scalar
import ZeekWebSocket.Spec.Wire
import ZeekWebSocket.Spec.Format
import ZeekWebSocket.Spec.Message
import ZeekWebSocket.Spec.Binding
import ZeekWebSocket.Spec.Serve
import ZeekWebSocket.Spec.Mock
import ZeekWebSocket.Spec.Halves
import ZeekWebSocket.Spec.CClient
import ZeekWebSocket.Spec.CValue
import ZeekWebSocket.Spec.Python
import ZeekWebSocket.Spec.Derive
import ZeekWebSocket.Spec.Macro
import ZeekWebSocket.Spec.Client
import ZeekWebSocket.Spec.PyObject
import ZeekWebSocket.Spec.Dataclass
import ZeekWebSocket.Spec.Node
import ZeekWebSocket.Sanity.Order
import ZeekWebSocket.Sanity.Equal
import ZeekWebSocket.Sanity.Parts
import ZeekWebSocket.Sanity.Message
import ZeekWebSocket.Sanity.Timespan
import ZeekWebSocket.Sanity.Sample
import ZeekWebSocket.Sanity.Writer
import ZeekWebSocket.Sanity.Reader
import ZeekWebSocket.Sanity.Format
import ZeekWebSocket.Sanity.Binding
import ZeekWebSocket.Sanity.Serve
import ZeekWebSocket.Sanity.Talk
import ZeekWebSocket.Sanity.Python
import ZeekWebSocket.Sanity.Node
import ZeekWebSocket.Sanity.Mock
import ZeekWebSocket.Proofs.ValueRoundTrip
import ZeekWebSocket.Proofs.MessageRoundTrip
import ZeekWebSocket.Proofs.DecodeSafety
import ZeekWebSocket.Proofs.Echo
import ZeekWebSocket.Proofs.Unrepresentable
import ZeekWebSocket.Proofs.EventRecognition
import ZeekWebSocket.Proofs.FieldOrder
import ZeekWebSocket.Proofs.TimespanGrammar
import ZeekWebSocket.Proofs.BindingRefinement
import ZeekWebSocket.Proofs.SplitHistory
import ZeekWebSocket.Proofs.Publish
import ZeekWebSocket.Proofs.Outgoing
import ZeekWebSocket.Proofs.Incoming
import ZeekWebSocket.Proofs.ControlFrames
import ZeekWebSocket.Proofs.Handshake
import ZeekWebSocket.Proofs.Deadlock
import ZeekWebSocket.Proofs.PythonJson
import ZeekWebSocket.Proofs.PythonRoundTrip
import ZeekWebSocket.Proofs.RecordEvolution
import ZeekWebSocket.Proofs.SyncClient
import ZeekWebSocket.Proofs.SyncHistory
import ZeekWebSocket.Proofs.NodePipeline
import ZeekWebSocket.Proofs.NodeTimespan
import ZeekWebSocket.Proofs.NodeTimestamp
import ZeekWebSocket.Proofs.NodeCounts
import ZeekWebSocket.Proofs.NodeBinding
import ZeekWebSocket.Proofs.MakeValue
import ZeekWebSocket.Proofs.ValueAttribute
import ZeekWebSocket.Proofs.AsRecord
import ZeekWebSocket.Proofs.AsyncioClient
import ZeekWebSocket.Proofs.Terms
import ZeekWebSocket.Proofs.RecordWire
import ZeekWebSocket.Proofs.MockEcho
import ZeekWebSocket.Proofs.MacroExpansion
import ZeekWebSocket.Proofs.CallbackOrder
import ZeekWebSocket.Proofs.CValues
