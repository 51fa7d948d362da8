import Concordance.Expression.Builder
import Concordance.Proofs.Acceptance
import Concordance.Proofs.Ancestors
import Concordance.Proofs.Archive
import Concordance.Proofs.Content
import Concordance.Proofs.Cycles
import Concordance.Proofs.Decoded
import Concordance.Proofs.Matching.ChildOrder
import Concordance.Proofs.Matching.Connected
import Concordance.Proofs.Matching.Safeguards
import Concordance.Proofs.Merged.Precedence
import Concordance.Proofs.Messages
import Concordance.Proofs.Outline
import Concordance.Proofs.Reflexive
import Concordance.Proofs.Shared
import Concordance.Proofs.SignatureTable
import Concordance.Render.Dump
