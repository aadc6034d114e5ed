import NeuralArch.Generator.Exchange
import NeuralArch.Main
import NeuralArch.Sampling.Exchange
import NeuralArch.Proofs.Drafting.Interpretation
import NeuralArch.Proofs.Generator.Depth
import NeuralArch.Proofs.Generator.Indentation
import NeuralArch.Proofs.Generator.Independence
import NeuralArch.Proofs.Generator.Listing
import NeuralArch.Proofs.Generator.Reach
import NeuralArch.Proofs.Generator.Recursions
import NeuralArch.Proofs.Generator.Samples
import NeuralArch.Proofs.Generator.Unguided
import NeuralArch.Proofs.Generator.Whitelist
import NeuralArch.Proofs.Grammar.History
import NeuralArch.Proofs.Grammar.Written
import NeuralArch.Proofs.Json.Tables
import NeuralArch.Proofs.Layout.Normal
import NeuralArch.Proofs.Meaning.Acceptance
import NeuralArch.Proofs.Meaning.Handover
import NeuralArch.Proofs.Meaning.Places
import NeuralArch.Proofs.Meaning.Strictness
import NeuralArch.Proofs.Sampling.Membership
import NeuralArch.Proofs.Syntax.Earliest
