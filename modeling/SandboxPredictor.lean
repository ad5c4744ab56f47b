import SandboxPredictor.MissCache
import SandboxPredictor.Snapshot
import SandboxPredictor.ReferencePerceptron
import SandboxPredictor.Ltage
import SandboxPredictor.TageAllocation
import SandboxPredictor.TageGshare
import SandboxPredictor.TageSettles
import SandboxPredictor.TagePerceptron
import SandboxPredictor.TageProvenance
import SandboxPredictor.Tournament
import SandboxPredictor.VipScoreboard
import SandboxPredictor.VipDefault
import SandboxPredictor.VipRepeat
import SandboxPredictor.VipOwner
import SandboxPredictor.ResetVip
import SandboxPredictor.PerceptronInFlight
import SandboxPredictor.PerceptronSettles
import SandboxPredictor.GsharePatterns
import SandboxPredictor.NestLoopTable
import SandboxPredictor.MissCache.NRUEviction
import SandboxPredictor.MissCache.LRUContents
import SandboxPredictor.TageFrame
import SandboxPredictor.TageShifts
import SandboxPredictor.TagFold
import SandboxPredictor.TageMatch
import SandboxPredictor.TageInvariant
import SandboxPredictor.TageChances
import SandboxPredictor.AddonHistory
import SandboxPredictor.PerceptronRange
import SandboxPredictor.MissCache.SegmentRuns
import SandboxPredictor.BranchAnalysis
import SandboxPredictor.ChampSim.Mshr
import SandboxPredictor.ChampSim.DramRuns
import SandboxPredictor.ChampSim.CoreCounters
import SandboxPredictor.ChampSim.PageTable
import SandboxPredictor.ChampSim.LastLevel
import SandboxPredictor.ChampSim.IpStride
import SandboxPredictor.ChampSim.Levels
