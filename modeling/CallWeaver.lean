import CallWeaver.Scheduler.Contract
import CallWeaver.Translate.Matrix
import CallWeaver.Udptl.FecRecovery
import CallWeaver.Dialplan.Search
import CallWeaver.Dialplan.RemovalLaw
import CallWeaver.Iax.Delivery
import CallWeaver.Iax.AuthLimit
import CallWeaver.Media.Slinfactory
import CallWeaver.Jitter.FixedOverlap
import CallWeaver.Udptl.Reading
import CallWeaver.Udptl.Bounds
import CallWeaver.Dialplan.Registration
import CallWeaver.Pbx.CallCount
import CallWeaver.Icd.Refinement
import CallWeaver.Sms.Transport
import CallWeaver.Sms.Reception
import CallWeaver.Pbx.Truncation
import CallWeaver.Queue.Order
import CallWeaver.Cdr.Conservation
import CallWeaver.Io.Dispatch
import CallWeaver.Dundi.Acknowledgement
import CallWeaver.Dns.Answer
import CallWeaver.Channel.StoreLaw
import CallWeaver.Rtp.Payload
import CallWeaver.Rtp.Clock
import CallWeaver.Udptl.Rejection
import CallWeaver.Udptl.TransmitBound
import CallWeaver.Jitter.FixedResynch
import CallWeaver.Dialplan.Separators
import CallWeaver.Jitter.AdaptivePlayout
import CallWeaver.Jitter.Generic
import CallWeaver.Config.RoundTrip
import CallWeaver.Iax.TrunkEntries
import CallWeaver.Iax.Elements
import CallWeaver.Iax.Frames
import CallWeaver.Iax.Video
import CallWeaver.Dialplan.Spaces
import CallWeaver.Dialplan.Collecting
import CallWeaver.Dialplan.Timing
import CallWeaver.Pbx.Slices
import CallWeaver.Sip.NameAddr
import CallWeaver.Sip.Sdp
import CallWeaver.Core.Base64
import CallWeaver.Tones.Playlist
