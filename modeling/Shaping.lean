import Shaping.Main
import Shaping.Proofs.Discovery
import Shaping.Proofs.Bisimulation
import Shaping.Proofs.Lockstep
import Shaping.Proofs.Splitting
import Shaping.Proofs.Quotient
import Shaping.Proofs.Behaviour
import Shaping.Proofs.Compiling
import Shaping.Proofs.Branches
import Shaping.Proofs.Matching
import Shaping.Proofs.Safety
import Shaping.Proofs.Limits
import Shaping.Proofs.Renumbering
import Shaping.Proofs.Packing
import Shaping.Proofs.Minimality
import Shaping.Proofs.Conflicts
import Shaping.Proofs.Reading
import Shaping.Proofs.Codecs
import Shaping.Proofs.JobFiles
import Shaping.Proofs.ClassPairs
import Shaping.Proofs.Edits
import Shaping.Proofs.Following
import Shaping.Proofs.Alone
import Shaping.Proofs.Shallow
import Shaping.Proofs.Ligatures
import Shaping.Proofs.Kerning
import Shaping.Proofs.Preceding
import Shaping.Proofs.ReverseChains
import Shaping.Proofs.Sweeps
import Shaping.Proofs.Cursive
import Shaping.Proofs.Marks
import Shaping.Proofs.SingleGlyphs
import Shaping.Proofs.PackedTables
import Shaping.Proofs.Payloads
import Shaping.Proofs.Spared
import Shaping.Proofs.Acceptance
import Shaping.Proofs.Classes
import Shaping.Proofs.Queries
import Shaping.Proofs.Depths
import Shaping.Proofs.Growth
import Shaping.Proofs.Sharing
import Shaping.Proofs.Formation
import Shaping.Proofs.Sums
import Shaping.Proofs.Magnitudes
import Shaping.Proofs.Violations
import Shaping.Proofs.Lines
import Shaping.Proofs.RawBytes
import Shaping.Proofs.Stacks
import Shaping.Proofs.Rounds
import Shaping.Proofs.Stepping
import Shaping.Proofs.Distances
import Shaping.Proofs.Endings
import Shaping.Proofs.Positions
import Shaping.Proofs.Words
