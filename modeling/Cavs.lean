import Cavs.BatchAgrees
import Cavs.BatchDecode
import Cavs.BootstrapResume
import Cavs.BundleSafe
import Cavs.BundleThin
import Cavs.ChunkMapAgrees
import Cavs.CompareExact
import Cavs.Concurrency
import Cavs.ContainerCorrupted
import Cavs.ContentSignature
import Cavs.EnvelopeCodec
import Cavs.GodotPck
import Cavs.GraceKept
import Cavs.Honest
import Cavs.Ignore
import Cavs.InstallPlan
import Cavs.Ladder
import Cavs.ManifestRoundTrip
import Cavs.MetaLost
import Cavs.MirrorExact
import Cavs.PlanRoundTrip
import Cavs.PolicyRoute
import Cavs.PromiseKept
import Cavs.Race
import Cavs.RangeCover
import Cavs.ReconstructorsAgree
import Cavs.Resume
import Cavs.SessionBloom
import Cavs.SessionDamaged
import Cavs.ShelfLife
import Cavs.SignContainer
import Cavs.Steampipe
import Cavs.VerifyExact
import Cavs.WalkDepth
import Cavs.WorkspaceRun
import Cavs.WriterFailed
import Cavs.RefCount
