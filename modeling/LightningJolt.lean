import LightningJolt.DivisionAdvice
import LightningJolt.Emission
import LightningJolt.InstructionInput
import LightningJolt.Blocks
import LightningJolt.LookupEntry
import LightningJolt.LookupAgreement
import LightningJolt.Layout
import LightningJolt.Bytes
import LightningJolt.Access
import LightningJolt.Stores
import LightningJolt.Openings
import LightningJolt.OpeningsInStep
import LightningJolt.SumcheckProof
import LightningJolt.BatchedSumcheck
import LightningJolt.BatchedAgreement
import LightningJolt.EqTable
import LightningJolt.SplitEq
import LightningJolt.SplitEqTables
import LightningJolt.GruenPoly
import LightningJolt.R1csConstraints
import LightningJolt.R1csEvaluation
import LightningJolt.AdviceLink
import LightningJolt.R1csLocal
import LightningJolt.R1csTraces
import LightningJolt.DoryCircuit
import LightningJolt.ByteStrings
import LightningJolt.KeccakTranscript
import LightningJolt.JoltTranscript
import LightningJolt.TranscriptAgreement
import LightningJolt.TranscriptRefinement
import LightningJolt.OnChainSumcheck
import LightningJolt.OnePoint
import LightningJolt.EqIndex
import LightningJolt.RlcMatrix
import LightningJolt.JointClaim
import LightningJolt.RlcProducts
import LightningJolt.OpensJoint
import LightningJolt.LayoutPartition
import LightningJolt.Expansion
import LightningJolt.StoreSequences
import LightningJolt.StoreConditional
import LightningJolt.LagrangeWeights
import LightningJolt.OnChainR1cs
import LightningJolt.Preamble
import LightningJolt.Codec
import LightningJolt.ProofCodec
import LightningJolt.RamInit
import LightningJolt.BytecodeAgreement
import LightningJolt.LookupExtension
import LightningJolt.LookupLoops
import LightningJolt.WordPaths
import LightningJolt.BytecodeWords
import LightningJolt.IoMle
import LightningJolt.BytecodePositions
import LightningJolt.PolyRoundTrip
import LightningJolt.EqBuilders
import LightningJolt.EqPlusOne
import LightningJolt.InlineFolding
import LightningJolt.ExtendedProducts
import LightningJolt.LagrangeConsistency
import LightningJolt.UniskipFirstRound
import LightningJolt.DecodePatterns
import LightningJolt.DenseBinding
import LightningJolt.RaPolynomials
import LightningJolt.RaBinding
import LightningJolt.LtPolynomial
import LightningJolt.CompactPolynomial
import LightningJolt.PrefixSharing
import LightningJolt.PrefixSuffix
import LightningJolt.OnChainBatched
import LightningJolt.OneHotPolynomial
import LightningJolt.RaPushforward
import LightningJolt.Extrapolation
import LightningJolt.ProductKernels
import LightningJolt.ProductSum
import LightningJolt.AffineTables
import LightningJolt.RafTables
import LightningJolt.RafRounds
import LightningJolt.OnChainEq
import LightningJolt.OnChainDory
import LightningJolt.OnChainUniSkip
import LightningJolt.VerifierSetup
import LightningJolt.Blake2b
import LightningJolt.DoryFiatShamir
import LightningJolt.DirectSumcheck
import LightningJolt.IncReduction
import LightningJolt.ReductionProvers
import LightningJolt.RaRounds
import LightningJolt.RaVirtual
import LightningJolt.GruenRounds
import LightningJolt.Booleanity
import LightningJolt.OutputCheck
import LightningJolt.LookupBits
import LightningJolt.SignedAccumulators
import LightningJolt.SparseMerge
import LightningJolt.ReadWriteMatrix
import LightningJolt.InnerProduct
import LightningJolt.Buckets
import LightningJolt.DorySetup
import LightningJolt.DoryPolynomial
import LightningJolt.DoryReduce
import LightningJolt.DoryOpening
import LightningJolt.DoryCompleteness
import LightningJolt.DoryVerdicts
import LightningJolt.DoryBatch
import LightningJolt.DorySetupFile
import LightningJolt.FieldStores
import LightningJolt.MemorySequences
import LightningJolt.MemoryExpansion
import LightningJolt.ZeroRegister
import LightningJolt.AccessLog
import LightningJolt.Tick
import LightningJolt.TraceLog
import LightningJolt.TraceConsistency
import LightningJolt.Tracer
import LightningJolt.TraceValues
import LightningJolt.Carries
import LightningJolt.MemoryCarries
import LightningJolt.CheckpointReplay
import LightningJolt.Reservations
