import HNBChain.Audit.Guarantees.AccountProgress
import HNBChain.Audit.Guarantees.AdviceQuorum
import HNBChain.Audit.Guarantees.Agreement
import HNBChain.Audit.Guarantees.Authorization
import HNBChain.Audit.Guarantees.BlockAtomicity
import HNBChain.Audit.Guarantees.BlockSequential
import HNBChain.Audit.Guarantees.BoundedRetries
import HNBChain.Audit.Guarantees.CheckAgreement
import HNBChain.Audit.Guarantees.CommitOrder
import HNBChain.Audit.Guarantees.CommitVerifier
import HNBChain.Audit.Guarantees.ConsensusLink
import HNBChain.Audit.Guarantees.Conservation
import HNBChain.Audit.Guarantees.EpochFollow
import HNBChain.Audit.Guarantees.EpochMatch
import HNBChain.Audit.Guarantees.GroupDraw
import HNBChain.Audit.Guarantees.HexText
import HNBChain.Audit.Guarantees.HonestProposal
import HNBChain.Audit.Guarantees.InboundLimits
import HNBChain.Audit.Guarantees.KeySeparation
import HNBChain.Audit.Guarantees.LastWitnesses
import HNBChain.Audit.Guarantees.LedgerAtomicity
import HNBChain.Audit.Guarantees.LedgerInvariant
import HNBChain.Audit.Guarantees.LockDiscipline
import HNBChain.Audit.Guarantees.LockLoyalty
import HNBChain.Audit.Guarantees.MessageFraming
import HNBChain.Audit.Guarantees.NoEquivocation
import HNBChain.Audit.Guarantees.NoMinting
import HNBChain.Audit.Guarantees.NoStuck
import HNBChain.Audit.Guarantees.OverlayCorrectness
import HNBChain.Audit.Guarantees.ProposalSelection
import HNBChain.Audit.Guarantees.ProposerOnly
import HNBChain.Audit.Guarantees.RecordSeparation
import HNBChain.Audit.Guarantees.Restart
import HNBChain.Audit.Guarantees.RoundRobin
import HNBChain.Audit.Guarantees.SaturatingArithmetic
import HNBChain.Audit.Guarantees.SenderIdentity
import HNBChain.Audit.Guarantees.ServedBlocks
import HNBChain.Audit.Guarantees.SoloInStep
import HNBChain.Audit.Guarantees.Solvency
import HNBChain.Audit.Guarantees.StateCommitment
import HNBChain.Audit.Guarantees.StorableBlocks
import HNBChain.Audit.Guarantees.SyncInStep
import HNBChain.Audit.Guarantees.SyncRange
import HNBChain.Audit.Guarantees.SyncStart
import HNBChain.Audit.Guarantees.TokenAgreement
import HNBChain.Audit.Guarantees.TokenOrder
import HNBChain.Audit.Guarantees.VoteAuthenticity
import HNBChain.Audit.Guarantees.VoteSetInvariant
import HNBChain.Audit.Guarantees.VoteWire
import HNBChain.Audit.Guarantees.VrfPrediction
import HNBChain.Audit.Guarantees.WitnessSelection
