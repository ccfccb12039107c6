import Chatlink.Lib.Regex
import Chatlink.Lib.Lists
import Chatlink.Text.Python
import Chatlink.Agent.Lexicon
import Chatlink.Agent.Acts
import Chatlink.Agent.Preprocess
import Chatlink.Agent.Turn
import Chatlink.Agent.ResolverSteps
import Chatlink.Agent.Lines
import Chatlink.Agent.Provenance
import Chatlink.Agent.Confirmation
import Chatlink.Agent.Facts
import Chatlink.Agent.MediaOrders
import Chatlink.Conversation.Coverage
import Chatlink.Conversation.Pending
import Chatlink.Conversation.Window
import Chatlink.Conversation.Orders
import Chatlink.Agent.Closing
import Chatlink.Agent.LineFrame
import Chatlink.Agent.OpenItems
import Chatlink.Delivery.Sheet
import Chatlink.Agent.CartForm
import Chatlink.Agent.MediaTurns
import Chatlink.Delivery.Alerts
import Chatlink.Delivery.Outbox
import Chatlink.Delivery.Isolation
import Chatlink.Delivery.Loop
import Chatlink.Delivery.Reports
import Chatlink.Identity.Unambiguous
import Chatlink.Gateway.Devices
import Chatlink.Gateway.Stream
import Chatlink.Mail.Cursor
import Chatlink.Mail.Advance
import Chatlink.Serve.ReadBack
import Chatlink.Serve.Fifo
import Chatlink.Serve.Wake
import Chatlink.Serve.Room
import Chatlink.Serve.Protocol
import Chatlink.Tachyon.Limits
import Chatlink.Tachyon.Placeholders
import Chatlink.Net.Authentication
import Chatlink.Net.Sessions
import Chatlink.Net.Nonces
import Chatlink.Net.Streams
import Chatlink.Wpk.Written
import Chatlink.Wpk.Loaded
import Chatlink.Hub.Home
import Chatlink.Hub.Brought
import Chatlink.Hub.Marks
import Chatlink.Http.InStep
import Chatlink.Agent.SoleWriter
import Chatlink.Agent.Requests
import Chatlink.Agent.AddOrder
import Chatlink.Agent.Collisions
import Chatlink.Agent.Normalization
import Chatlink.Agent.GlobalQty
import Chatlink.Agent.Budget
import Chatlink.Agent.Asked
import Chatlink.Agent.OnlyFit
import Chatlink.Agent.Questions
import Chatlink.Media.Pictures
import Chatlink.Media.Jpeg
import Chatlink.Media.Zlib
import Chatlink.Token.Detokenizer
import Chatlink.Token.NormalForm
import Chatlink.Token.Stored
import Chatlink.Tachyon.Eviction
import Chatlink.Media.Wav
import Chatlink.Lib.Choice
import Chatlink.Token.Patterns
import Chatlink.Token.Scanners
import Chatlink.Token.Splitting
import Chatlink.Encoder.Batches
import Chatlink.Lib.Crc
import Chatlink.Tachyon.Prefill
import Chatlink.Wpk.Checksum
import Chatlink.Encoder.Laya
import Chatlink.Lib.Calendar
import Chatlink.Net.Calendar
import Chatlink.Net.Repeats
import Chatlink.Net.Signatures
import Chatlink.Lib.Sha2
import Chatlink.Lib.Ascii
import Chatlink.Lib.Base64
import Chatlink.Net.Sha256
import Chatlink.Net.ShaNi
import Chatlink.Net.Hashing
import Chatlink.Net.Hmac
import Chatlink.Net.Pem
import Chatlink.Gateway.MemFile
import Chatlink.Tachyon.Mel
import Chatlink.Tachyon.JsonDumps
import Chatlink.Lib.Tournament
import Chatlink.Lib.Bpe
import Chatlink.Lib.Probing
import Chatlink.Token.Merging
import Chatlink.Token.Tables
import Chatlink.Token.Encoding
import Chatlink.Token.Names
import Chatlink.Token.Cutting
import Chatlink.Token.Decoding
import Chatlink.Token.Forging
import Chatlink.Token.Document
