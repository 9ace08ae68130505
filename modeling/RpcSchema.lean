import RpcSchema.Main
import RpcSchema.Program
import RpcSchema.Proofs.AcceptedFront
import RpcSchema.Proofs.Commitment
import RpcSchema.Proofs.Confinement
import RpcSchema.Proofs.FieldSlots
import RpcSchema.Proofs.Joining
import RpcSchema.Proofs.Journal
import RpcSchema.Proofs.JsonText
import RpcSchema.Proofs.Keywords
import RpcSchema.Proofs.Listing
import RpcSchema.Proofs.NormalForm
import RpcSchema.Proofs.Offences
import RpcSchema.Proofs.Outcomes
import RpcSchema.Proofs.Pieces
import RpcSchema.Proofs.Restoration
import RpcSchema.Proofs.Retention
import RpcSchema.Proofs.SingleUse
import RpcSchema.Proofs.Spacing
import RpcSchema.Proofs.Spans
import RpcSchema.Proofs.Termination
