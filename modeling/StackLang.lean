import StackLang.Evaluate
import StackLang.Program.Equality
import StackLang.Proofs.BigStep
import StackLang.Proofs.Bindings
import StackLang.Proofs.Refinement
import StackLang.Proofs.Declared
import StackLang.Proofs.Derivation
import StackLang.Proofs.Headers
import StackLang.Proofs.Resolution
import StackLang.Proofs.Shadowing
import StackLang.Proofs.WellFormed
import StackLang.Proofs.Acceptance
import StackLang.Proofs.Activation
import StackLang.Proofs.Noninterference
import StackLang.Proofs.Output
import StackLang.Proofs.Limit
import StackLang.Proofs.Refusal
import StackLang.Proofs.Underneath
import StackLang.Proofs.Layout
import StackLang.Proofs.ReadBack
import StackLang.Proofs.Erasure
import StackLang.Proofs.ErasedRuns
import StackLang.Proofs.LoopFree
import StackLang.Proofs.Observers
import StackLang.Proofs.Tracing
import StackLang.Proofs.Lexing
import StackLang.Proofs.ControlPath
import StackLang.Proofs.Blame
import StackLang.Proofs.CallBoundary
import StackLang.Proofs.Resumption
import StackLang.Proofs.Reruns
import StackLang.Proofs.Lookahead
import StackLang.Proofs.Agreement
import StackLang.Proofs.Placement
import StackLang.Proofs.Recognition
import StackLang.Proofs.Coherence
import StackLang.Proofs.Arithmetic
