import HashSig.ManyTime.Key
import HashSig.ManyTime.Verification
import HashSig.Proofs.Chain
import HashSig.Proofs.Encoding
import HashSig.Proofs.Tree
import HashSig.Proofs.Soundness
import HashSig.Proofs.Outcome
import HashSig.Proofs.LeafUse
import HashSig.Proofs.Acceptance
import HashSig.Proofs.Linearization
import HashSig.Proofs.Sharing
import HashSig.Proofs.Binding
import HashSig.Proofs.PathBinding
import HashSig.Proofs.Decoding
import HashSig.Proofs.Standard
import HashSig.Proofs.Coefficients
import HashSig.Proofs.Conformance
import HashSig.Proofs.Expansion
import HashSig.Proofs.Caching
import HashSig.Proofs.Recovery
import HashSig.Proofs.Requests
import HashSig.Proofs.Codec
import HashSig.Proofs.Refusal
import HashSig.Proofs.Separation
import HashSig.Proofs.Guarded
import HashSig.Proofs.GuardedChains
import HashSig.Proofs.Safety
import HashSig.Proofs.KeyCodec
import HashSig.Proofs.History
import HashSig.Proofs.CallLog
import HashSig.Proofs.Log
import HashSig.Proofs.Secrecy
import HashSig.Proofs.Incomparable
import HashSig.Proofs.TreeBuilding
import HashSig.Proofs.Standalone
import HashSig.Proofs.KeyBinding
import HashSig.Proofs.PublicKeyCodec
import HashSig.Proofs.GuardedTree
import HashSig.Proofs.TreeLevels
import HashSig.Proofs.KeySafety
