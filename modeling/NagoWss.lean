import NagoWss.Core.BigEndian
import NagoWss.Core.Blocks
import NagoWss.Core.Bits
import NagoWss.Core.Fips180
import NagoWss.Core.Rfc4648
import NagoWss.Core.Scramble
import NagoWss.Core.Framing
import NagoWss.Core.Stability
import NagoWss.Core.Responder
import NagoWss.Core.Search
import NagoWss.Core.Text
import NagoWss.Core.Utf8
import NagoWss.Proto.OpCode
import NagoWss.Proto.Frame
import NagoWss.Proto.FrameCodec
import NagoWss.Proto.Mask
import NagoWss.Proto.Message
import NagoWss.Proto.Reassembly
import NagoWss.Proto.Digest
import NagoWss.Proto.Base64
import NagoWss.Proto.Sha1
import NagoWss.Proto.Handshake
import NagoWss.Proto.Fields
import NagoWss.Proto.Conformance
import NagoWss.Proto.ListHeaders
import NagoWss.Proto.Head
import NagoWss.Proto.BlankLine
import NagoWss.Proto.Agreement
import NagoWss.Conn.Stream
import NagoWss.Conn.Connection
import NagoWss.Conn.FrameSize
import NagoWss.Conn.Reading
import NagoWss.Conn.DefaultReads
import NagoWss.Conn.Wire
import NagoWss.Conn.Ending
import NagoWss.Conn.Sending
import NagoWss.Conn.Batch
import NagoWss.Conn.Bounds
import NagoWss.Conn.Allocation
import NagoWss.Conn.Acceptance
import NagoWss.Conn.Closing
import NagoWss.Conn.CloseFlag
import NagoWss.Conn.MaskKeys
import NagoWss.Conn.Duplex
import NagoWss.Conn.Upgrade
import NagoWss.Conn.HeadArrival
import NagoWss.Conn.Gathering
import NagoWss.Conn.Answering
import NagoWss.Conn.Genuine
import NagoWss.Conn.Client
import NagoWss.Conn.Authority
import NagoWss.Conn.UrlGrammar
import NagoWss.Conn.UrlShape
import NagoWss.Conn.Opening
import NagoWss.Conn.Relaying
import NagoWss.Conn.Cutoff
import NagoWss.Conn.Finality
import NagoWss.Conn.Conforming
import NagoWss.Conn.HeadBounds
import NagoWss.Conn.Refusal
import NagoWss.Conn.Echo
import NagoWss.Conn.EchoCutoff
import NagoWss.Conn.EchoPipes
import NagoWss.Conn.Session
