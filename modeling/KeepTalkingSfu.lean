import KeepTalkingSfu.FrameSequence
import KeepTalkingSfu.CodecExact
import KeepTalkingSfu.SessionStream
import KeepTalkingSfu.PhantomBytes
import KeepTalkingSfu.BulkQueue
import KeepTalkingSfu.BulkDispatch
import KeepTalkingSfu.RoomView
import KeepTalkingSfu.RoomHistory
import KeepTalkingSfu.Announcements
import KeepTalkingSfu.Refusals
import KeepTalkingSfu.FanOut
import KeepTalkingSfu.FloodBound
import KeepTalkingSfu.SnapshotCuts
import KeepTalkingSfu.BufferGrowth
import KeepTalkingSfu.SnapshotAssembly
import KeepTalkingSfu.MalformedFrames
import KeepTalkingSfu.BucketRuns
import KeepTalkingSfu.RejectedCalls
import KeepTalkingSfu.InfoDocument
import KeepTalkingSfu.ClientView
import KeepTalkingSfu.LaneCuts
import KeepTalkingSfu.DeliveryOrigin
import KeepTalkingSfu.DatagramRelay
import KeepTalkingSfu.InfoExchange
import KeepTalkingSfu.PublishAfterSnapshot
import KeepTalkingSfu.Admission
import KeepTalkingSfu.ServerLoad
import KeepTalkingSfu.Resubscription
import KeepTalkingSfu.Teardown
import KeepTalkingSfu.LaneDelivery
import KeepTalkingSfu.TopicsApart
