import ReflexLlm.Proofs.AllocFailure
import ReflexLlm.Proofs.Evict
import ReflexLlm.Proofs.GgufConfig
import ReflexLlm.Proofs.EngineLoad
import ReflexLlm.Proofs.FastSample
import ReflexLlm.Proofs.HydrateRace
import ReflexLlm.Proofs.Prefill
import ReflexLlm.Proofs.SampledNucleus
import ReflexLlm.Proofs.CacheBudget
import ReflexLlm.Proofs.CacheRoundTrip
import ReflexLlm.Proofs.DeviceCopy
import ReflexLlm.Proofs.SaveAtomic
import ReflexLlm.Proofs.ChatErrors
import ReflexLlm.Proofs.ChatPrompt
import ReflexLlm.Proofs.EncodeSplit
import ReflexLlm.Proofs.GreedyFallback
import ReflexLlm.Proofs.MergeLoop
import ReflexLlm.Proofs.RepeatPenalty
import ReflexLlm.Proofs.ScratchFit
import ReflexLlm.Proofs.SplitInvariant
import ReflexLlm.Proofs.StorageWidth
import ReflexLlm.Proofs.StreamedUtf8
import ReflexLlm.Proofs.TokenText
import ReflexLlm.Proofs.Tokenizer
import ReflexLlm.Proofs.TokenizerLoad
import ReflexLlm.Proofs.Transparent
import ReflexLlm.Proofs.TurnLedger
import ReflexLlm.Proofs.WeightOrder
import ReflexLlm.Proofs.Fingerprint
import ReflexLlm.Proofs.HeapScan
import ReflexLlm.Proofs.Pretokenize
import ReflexLlm.Proofs.ScratchRun
import ReflexLlm.Proofs.KQuant
import ReflexLlm.Proofs.Rope
import ReflexLlm.Proofs.Convert
import ReflexLlm.Lib.RaceFree
import ReflexLlm.Lib.Phases
import ReflexLlm.Lib.Warps
import ReflexLlm.Spec.Norm
import ReflexLlm.Proofs.Norm
import ReflexLlm.Spec.Stream
import ReflexLlm.Proofs.Callback
import ReflexLlm.Proofs.Stream
import ReflexLlm.Spec.CacheDir
import ReflexLlm.Proofs.CacheDir
import ReflexLlm.Lib.WeightedDraw
import ReflexLlm.Proofs.SampleLaw
import ReflexLlm.Lib.Ownership
import ReflexLlm.Spec.Materialize
import ReflexLlm.Proofs.Materialize
import ReflexLlm.Lib.EarlyReturn
import ReflexLlm.Spec.LoadUnload
import ReflexLlm.Proofs.RecordedSystem
import ReflexLlm.Proofs.Resident
import ReflexLlm.Proofs.Resources
import ReflexLlm.Lib.Lock
import ReflexLlm.Spec.ConcurrentServer
import ReflexLlm.Proofs.ConcurrentServer
import ReflexLlm.Lib.Lines
import ReflexLlm.Spec.Meminfo
import ReflexLlm.Proofs.Meminfo
