import SqlStatement.Proofs.Rejoining
import SqlStatement.Proofs.Resplitting
import SqlStatement.Proofs.Reordering
import SqlStatement.Proofs.Attaching
import SqlStatement.Query.Start
import SqlStatement.Proofs.Welding
import SqlStatement.Proofs.Binding
import SqlStatement.Proofs.Balancing
import SqlStatement.Proofs.Quoting
import SqlStatement.Proofs.Casting
import SqlStatement.Proofs.Carrying
import SqlStatement.Proofs.Cutting
import SqlStatement.Proofs.Leveling
import SqlStatement.Proofs.Updating
import SqlStatement.Proofs.Numbering
import SqlStatement.Proofs.Conjoining
import SqlStatement.Proofs.Exposing
import SqlStatement.Proofs.Curtailing
import SqlStatement.Proofs.Secluding
import SqlStatement.Proofs.Relabeling
import SqlStatement.Proofs.Preserving
import SqlStatement.Proofs.Joining
import SqlStatement.Proofs.Counting
import SqlStatement.Proofs.Sparing
import SqlStatement.Proofs.Refreshing
import SqlStatement.Proofs.Tabulating
import SqlStatement.Proofs.Assigning
import SqlStatement.Proofs.Exhausting
import SqlStatement.Proofs.Sweeping
import SqlStatement.Proofs.Dotting
import SqlStatement.Proofs.Requoting
import SqlStatement.Proofs.Enclosing
import SqlStatement.Proofs.Sealing
import SqlStatement.Proofs.Listing
import SqlStatement.Proofs.Widening
import SqlStatement.Proofs.Evaluating
import SqlStatement.Proofs.Limiting
import SqlStatement.Proofs.Caseless
import SqlStatement.Proofs.Collecting
import SqlStatement.Proofs.Rereading
import SqlStatement.Proofs.Exempting
import SqlStatement.Proofs.Branching
import SqlStatement.Proofs.Spelling
import SqlStatement.Proofs.Recognizing
import SqlStatement.Proofs.Overwriting
import SqlStatement.Proofs.Partitioning
import SqlStatement.Proofs.Matching
import SqlStatement.Proofs.Guarding
import SqlStatement.Proofs.Adjoining
import SqlStatement.Proofs.Confining
import SqlStatement.Proofs.Transcribing
import SqlStatement.Proofs.Substituting
import SqlStatement.Proofs.Reserving
import SqlStatement.Proofs.Isolating
