import Marshal.Diagnostic.Render
import Marshal.Document.Reports
import Marshal.Proofs.Places
import Marshal.Proofs.RoundTrip
import Marshal.Proofs.Expansion
import Marshal.Proofs.Rivals
import Marshal.Proofs.Batches
import Marshal.Proofs.Interning
import Marshal.Proofs.Restoring
import Marshal.Proofs.Guarded
import Marshal.Proofs.Lockstep
import Marshal.Proofs.Aliases
import Marshal.Proofs.Defaults
import Marshal.Proofs.Leftovers
import Marshal.Proofs.Feeding
import Marshal.Proofs.Delivery
import Marshal.Proofs.Constructors
import Marshal.Proofs.Laws
import Marshal.Proofs.Pruning
import Marshal.Proofs.Composition
import Marshal.Proofs.Tagging
import Marshal.Proofs.Sharing
import Marshal.Proofs.Mentioning
import Marshal.Proofs.Absence
import Marshal.Proofs.Descent
