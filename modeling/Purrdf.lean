import Purrdf.MmrProving
import Purrdf.ParquetRoundTrip
import Purrdf.InflateAgreement
import Purrdf.ShexDecision
import Purrdf.IriResolve
import Purrdf.CsvInverse
import Purrdf.PathReach
import Purrdf.CallerAccount
import Purrdf.GraphHistory
import Purrdf.GlobSetMatching
import Purrdf.UnifySortComplete
import Purrdf.CompactRoundTrip
import Purrdf.TerminationEvidence
import Purrdf.InflateRestart
import Purrdf.WideArithmetic
import Purrdf.PercentCoding
import Purrdf.SquareRoot
import Purrdf.CborFloatItems
import Purrdf.CoverOrder
import Purrdf.ReifierRecursion
import Purrdf.HashJoinBag
import Purrdf.RankSelectBytes
import Purrdf.MlDsaSampling
