import HttpUtils.Library.PartialRun
import HttpUtils.Library.WaitableTimer
import HttpUtils.Library.ByteStream
import HttpUtils.Library.Inevitability
import HttpUtils.HttpParser.Chars
import HttpUtils.HttpParser.State
import HttpUtils.HttpParser.Switch
import HttpUtils.HttpParser.Execute
import HttpUtils.HttpParser.Bytewise
import HttpUtils.HttpParser.ExecuteBytewise
import HttpUtils.HttpPacket
import HttpUtils.Decimal
import HttpUtils.RequestParser
import HttpUtils.Message
import HttpUtils.HttpParser.Move
import HttpUtils.HttpParser.Marks
import HttpUtils.HttpParser.Losses
import HttpUtils.HttpParser.Reader
import HttpUtils.HttpParser.Division
import HttpUtils.HttpParser.Passage
import HttpUtils.HttpParser.HeaderLine
import HttpUtils.HttpParser.HeaderSection
import HttpUtils.HttpParser.ContentLength
import HttpUtils.HttpParser.StartLine
import HttpUtils.HttpParser.Places
import HttpUtils.HttpParser.Completion
import HttpUtils.HttpParser.Sound
import HttpUtils.HttpParser.Shadow
import HttpUtils.HttpParser.NextMessage
import HttpUtils.HttpParser.Lines
import HttpUtils.HttpParser.Framing
import HttpUtils.HttpParser.FieldWidths
import HttpUtils.HttpParser.RequestLine
import HttpUtils.HttpParser.Repeats
import HttpUtils.HttpParser.Renewal
import HttpUtils.HttpParser.NextResponse
import HttpUtils.HttpParser.StatusText
import HttpUtils.HttpParser.ParseUrl
import HttpUtils.HttpParser.ParseHost
import HttpUtils.HttpParser.UrlFields
import HttpUtils.ParseDivision
import HttpUtils.ParseBuffer
import HttpUtils.HeaderDivision
import HttpUtils.HeaderValues
import HttpUtils.RoundTrip
import HttpUtils.Pipelining
import HttpUtils.DeliveredStatus
import HttpUtils.Injection
import HttpUtils.LengthField
import HttpUtils.LengthError
import HttpUtils.EncodedLength
import HttpUtils.ResponseDivision
import HttpUtils.InterimResponses
import HttpUtils.RequestMethod
import HttpUtils.ParseUri
import HttpUtils.UriAgreement
import HttpUtils.Authority
import HttpUtils.Session.ServerSession
import HttpUtils.Session.Steps
import HttpUtils.Session.Timeouts
import HttpUtils.Session.Stopping
import HttpUtils.Session.Replies
import HttpUtils.Session.Isolation
import HttpUtils.Session.OneRequest
import HttpUtils.Session.Agreement
import HttpUtils.Session.Rearming
import HttpUtils.Server
import HttpUtils.SessionManager
import HttpUtils.Asio
import HttpUtils.Client.HttpClient
import HttpUtils.Client.Steps
import HttpUtils.Client.Answers
import HttpUtils.Client.Delivery
import HttpUtils.Client.CompleteReply
import HttpUtils.Client.Endpoints
import HttpUtils.Midway
import HttpUtils.Exchange.Exchange
import HttpUtils.Exchange.Serving
import HttpUtils.Exchange.Asking
import HttpUtils.Exchange.Safety
import HttpUtils.Exchange.Completion
import HttpUtils.Exchange.Termination
import HttpUtils.Library.Components
import HttpUtils.Network.Network
import HttpUtils.Network.Alone
import HttpUtils.Network.Service
import HttpUtils.HttpParser.ChunkedHeader
import HttpUtils.Laps
import HttpUtils.Chunks
import HttpUtils.HttpParser.ResponseLine
import HttpUtils.ChunkedMessages
import HttpUtils.HttpParser.HeadEnd
import HttpUtils.Frames
import HttpUtils.FramedMessages
