import HathorLedger.App
import HathorLedger.Client.Commands
import HathorLedger.Client.Completion
import HathorLedger.Client.Path
import HathorLedger.Client.Requests
import HathorLedger.Client.Signing
import HathorLedger.Client.Token
import HathorLedger.Client.Tokens
import HathorLedger.Client.Transaction
import HathorLedger.Common.Base58
import HathorLedger.Common.Base58Decode
import HathorLedger.Common.Bip32
import HathorLedger.Common.Buffer
import HathorLedger.Common.Capacity
import HathorLedger.Common.Cursor
import HathorLedger.Common.Decimal
import HathorLedger.Common.Format
import HathorLedger.Common.Itoa
import HathorLedger.Common.Memory
import HathorLedger.Common.PathText
import HathorLedger.Handler.ChangeCodec
import HathorLedger.Handler.Chunks
import HathorLedger.Handler.Commands
import HathorLedger.Handler.Cuts
import HathorLedger.Handler.Decoding
import HathorLedger.Handler.FirstChunk
import HathorLedger.Handler.SignTx
import HathorLedger.Library.Counting
import HathorLedger.Library.Dialogue
import HathorLedger.Library.Log
import HathorLedger.Library.Numeral
import HathorLedger.Library.StepParser
import HathorLedger.Library.Throwing
import HathorLedger.Library.Transition
import HathorLedger.Library.TwoRuns
import HathorLedger.Library.WeakestPrecondition
import HathorLedger.Run.Approvals
import HathorLedger.Run.Buffers
import HathorLedger.Run.Calm
import HathorLedger.Run.ChangeRun
import HathorLedger.Run.Completeness
import HathorLedger.Run.Confirming
import HathorLedger.Run.Deliveries
import HathorLedger.Run.Disturbance
import HathorLedger.Run.Effects
import HathorLedger.Run.Emissions
import HathorLedger.Run.Errors
import HathorLedger.Run.Exchange
import HathorLedger.Run.Faithful
import HathorLedger.Run.History
import HathorLedger.Run.Isolation
import HathorLedger.Run.Lockstep
import HathorLedger.Run.OutputScreens
import HathorLedger.Run.OwnScreens
import HathorLedger.Run.Paths
import HathorLedger.Run.Progress
import HathorLedger.Run.Records
import HathorLedger.Run.Registry
import HathorLedger.Run.Requests
import HathorLedger.Run.Responses
import HathorLedger.Run.Review
import HathorLedger.Run.Reviewing
import HathorLedger.Run.Sequential
import HathorLedger.Run.Serving
import HathorLedger.Run.Session
import HathorLedger.Run.SignStage
import HathorLedger.Run.Signing
import HathorLedger.Run.Stages
import HathorLedger.Run.Storing
import HathorLedger.Run.Straying
import HathorLedger.Run.Symbols
import HathorLedger.Run.TokenSignatures
import HathorLedger.Run.Tokens
import HathorLedger.Run.Whole
import HathorLedger.Sdk
import HathorLedger.Token.Payload
import HathorLedger.Token.Printable
import HathorLedger.Token.Signature
import HathorLedger.Token.TokenData
import HathorLedger.Transaction.Deserialize
import HathorLedger.Transaction.ElementParser
import HathorLedger.Transaction.Grammar
import HathorLedger.Transaction.Output
import HathorLedger.Types
import HathorLedger.Ui.Address
import HathorLedger.Ui.Amount
import HathorLedger.Ui.Display
import HathorLedger.Ui.OutputCounter
import HathorLedger.Ui.SelectionSort
import HathorLedger.World
