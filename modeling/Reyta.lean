import Reyta.Admission
import Reyta.Announcement
import Reyta.Attempts
import Reyta.BitRuns
import Reyta.Bitmap
import Reyta.BlockCodec
import Reyta.CallHistories
import Reyta.Capability
import Reyta.CheckedLoop
import Reyta.ChunkBinding
import Reyta.ChunkLayout
import Reyta.Control
import Reyta.ControlLink
import Reyta.CountedParser
import Reyta.CrashDisk
import Reyta.CreateOnce
import Reyta.Delivery
import Reyta.Destinations
import Reyta.EarlyExit
import Reyta.EventBinding
import Reyta.EventQueue
import Reyta.FirstRun
import Reyta.FrameSizes
import Reyta.Framing
import Reyta.Handshake
import Reyta.HandshakeAgreement
import Reyta.HandshakeMessages
import Reyta.HonestCalls
import Reyta.HonestSession
import Reyta.HonestTransfer
import Reyta.Interests
import Reyta.Keystore
import Reyta.Leb128
import Reyta.ManifestChecks
import Reyta.ManifestSealing
import Reyta.MerkleDepth
import Reyta.MissingChunks
import Reyta.MissingRanges
import Reyta.NextRequest
import Reyta.Offer
import Reyta.OfferCreation
import Reyta.OldestOut
import Reyta.OneUse
import Reyta.PrivateManifest
import Reyta.RawBitmap
import Reyta.ReceiveProgress
import Reyta.Receiver
import Reyta.ReplayRuns
import Reyta.Resume
import Reyta.ResumeRecord
import Reyta.ResumeStore
import Reyta.ResumptionMessages
import Reyta.ResumptionRaces
import Reyta.ResumptionStore
import Reyta.Retention
import Reyta.RouteRuns
import Reyta.RunLength
import Reyta.Scheduler
import Reyta.SealedRecord
import Reyta.Sender
import Reyta.SessionCorrespondence
import Reyta.Sessions
import Reyta.SharedRecord
import Reyta.SkipCost
import Reyta.StreamingDigest
import Reyta.Ticket
