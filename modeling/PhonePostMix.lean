import PhonePostMix.WebSocket.ClientEncoding
import PhonePostMix.WebSocket.Reassembly
import PhonePostMix.Server.Broadcast
import PhonePostMix.Server.Ending
import PhonePostMix.Server.Wire
import PhonePostMix.Engine.ChannelCount
import PhonePostMix.Engine.Epochs
import PhonePostMix.Engine.Gaps
import PhonePostMix.Receiver.Transport
import PhonePostMix.Receiver.Recovery
import PhonePostMix.Receiver.Control
import PhonePostMix.Wire.Agreement
import PhonePostMix.Engine.Pipeline
import PhonePostMix.Engine.RingRefinement
import PhonePostMix.Engine.SpscRing
import PhonePostMix.Library.Latch
import PhonePostMix.WebSocket.ParserBounds
import PhonePostMix.Engine.Numbering
import PhonePostMix.Engine.Sessions
import PhonePostMix.Plugin.Packets
import PhonePostMix.Engine.Announcements
import PhonePostMix.Engine.ClientRegistry
import PhonePostMix.Plugin.Pairing
import PhonePostMix.Listen.Connect
import PhonePostMix.Receiver.LossAccounting
import PhonePostMix.WebSocket.AcceptKey
import PhonePostMix.Server.Backpressure
import PhonePostMix.Server.Deadline
import PhonePostMix.Server.RequestHead
import PhonePostMix.Server.Handover
import PhonePostMix.Plugin.Keepalive
import PhonePostMix.Receiver.Interpolation
import PhonePostMix.Receiver.CleanStart
import PhonePostMix.Receiver.Provenance
import PhonePostMix.Http.UpgradeDetection
import PhonePostMix.Server.ServerFrames
import PhonePostMix.Server.Replies
import PhonePostMix.Listen.SendText
import PhonePostMix.Engine.ClientEntries
import PhonePostMix.Listen.WavFile
import PhonePostMix.Engine.Mutexes
import PhonePostMix.Listen.EndToEnd
import PhonePostMix.Library.ReedSolomon
import PhonePostMix.Plugin.QrCodeComponent
