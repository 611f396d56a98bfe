import SpecDecode.Constrained.GrammarCache
import SpecDecode.Constrained.GrammarRanks
import SpecDecode.Constrained.ReasonerGrammar
import SpecDecode.DFlash.DraftInput
import SpecDecode.Detokenizer.Incremental
import SpecDecode.Eagle.AdaptiveController
import SpecDecode.Eagle.DraftKvConsistent
import SpecDecode.Eagle.DraftTree
import SpecDecode.Eagle.FreeRejectedSpec
import SpecDecode.Eagle.GrammarVerify
import SpecDecode.Eagle.PackedMask
import SpecDecode.Eagle.VerifyCompact
import SpecDecode.Eagle.VerifyCompactSpec
import SpecDecode.Eplb.ElasticityAware
import SpecDecode.Eplb.RelocateWeights
import SpecDecode.Gateway.BucketRun
import SpecDecode.Gateway.CircuitBreaker
import SpecDecode.Gateway.PolicySelect
import SpecDecode.Lib.Compaction
import SpecDecode.MemCache.Conservation
import SpecDecode.MemCache.PagedAlloc
import SpecDecode.MemCache.RadixEvict
import SpecDecode.MemCache.SwaAllocRun
import SpecDecode.MemCache.SwaEvictRun
import SpecDecode.MemCache.SwaRun
import SpecDecode.Ngram.BatchSpec
import SpecDecode.Ngram.CorpusListing
import SpecDecode.Ngram.ExternalCorpusAgree
import SpecDecode.Ngram.InsertSafety
import SpecDecode.Ngram.MaskRoundTrip
import SpecDecode.Ngram.MatchRun
import SpecDecode.Npu.BuildTreeNative
import SpecDecode.Npu.CacheLocSpec
import SpecDecode.Npu.VerifyGreedy
import SpecDecode.Npu.VerifyNative
import SpecDecode.Overlap.Accounting
import SpecDecode.Overlap.FutureMap
import SpecDecode.Parser.ReasoningStream
import SpecDecode.Scheduler.AdmitRoom
import SpecDecode.Scheduler.CheckOnce
import SpecDecode.Scheduler.IgnoreEos
import SpecDecode.Scheduler.QueueOrder
import SpecDecode.Scheduler.StopRegex
import SpecDecode.Training.DFlashAnchors
import SpecDecode.Training.DFlashLeak
import SpecDecode.Training.DFlashMask
import SpecDecode.Training.DFlashModel
import SpecDecode.Training.LossMask
import SpecDecode.Training.LossMaskScan
import SpecDecode.Training.LossMaskSpec
import SpecDecode.Training.ShardedViews
import SpecDecode.MemCache.KvEventHash
import SpecDecode.MemCache.KvEventReplay
import SpecDecode.Eagle.Generation
import SpecDecode.Eagle.SampleLaw
import SpecDecode.Eagle.SampleLossless
import SpecDecode.Eagle.TreeAttention
