import Reprint.Main
import Reprint.Style.Decode
import Reprint.Proofs.Descent
import Reprint.Proofs.Placement
import Reprint.Proofs.Widest
import Reprint.Proofs.Discovery
import Reprint.Proofs.Runs
import Reprint.Proofs.OwnRoot
import Reprint.Proofs.Cuts
import Reprint.Proofs.Splice
import Reprint.Proofs.Exchange
import Reprint.Proofs.Kept
import Reprint.Proofs.Leaves
import Reprint.Proofs.Alike
import Reprint.Proofs.InStep
import Reprint.Proofs.Rebuilt
import Reprint.Proofs.Loading
import Reprint.Proofs.Segments
import Reprint.Proofs.Blanks
import Reprint.Proofs.Marks
import Reprint.Proofs.Division
import Reprint.Proofs.Joining
import Reprint.Proofs.Lines
import Reprint.Proofs.Completion
import Reprint.Proofs.Surroundings
import Reprint.Proofs.Anchors
import Reprint.Proofs.Applicable
import Reprint.Proofs.Call
import Reprint.Proofs.Arguments
import Reprint.Proofs.Brackets
import Reprint.Proofs.Row
import Reprint.Proofs.Spelling
import Reprint.Proofs.PlainGaps
import Reprint.Proofs.Assembly
import Reprint.Proofs.Thinning
import Reprint.Proofs.Parens
import Reprint.Proofs.MethodGaps
import Reprint.Proofs.Parameters
import Reprint.Proofs.Methods
import Reprint.Proofs.Deletion
import Reprint.Proofs.Narrowing
import Reprint.Proofs.Lettering
import Reprint.Proofs.Refilled
import Reprint.Proofs.ArgumentLists
import Reprint.Proofs.Remarks
import Reprint.Proofs.Statements
import Reprint.Proofs.Partition
import Reprint.Proofs.Seams
import Reprint.Proofs.Words
import Reprint.Proofs.Transparent
import Reprint.Proofs.Fallback
import Reprint.Proofs.Slots
import Reprint.Proofs.Literals
import Reprint.Proofs.Reading
import Reprint.Proofs.Acceptance
import Reprint.Proofs.Positions
import Reprint.Proofs.Sharing
import Reprint.Proofs.Renaming
import Reprint.Proofs.RenamedPrint
import Reprint.Proofs.RenamedLoad
import Reprint.Proofs.Disk
import Reprint.Proofs.Jobs
import Reprint.Proofs.Overwriting
import Reprint.Proofs.Foremost
import Reprint.Proofs.Lookup
import Reprint.Proofs.ChangedNodes
import Reprint.Proofs.Pristine
import Reprint.Proofs.Parents
import Reprint.Proofs.Sides
import Reprint.Proofs.Strict
import Reprint.Proofs.LineBreaks
import Reprint.Proofs.Rewording
import Reprint.Proofs.Locality
import Reprint.Proofs.Code
import Reprint.Proofs.Afresh
import Reprint.Proofs.Extraction
import Reprint.Proofs.Substitution
import Reprint.Proofs.Ties
import Reprint.Proofs.Keywords
import Reprint.Proofs.Writing
import Reprint.Proofs.Scanning
import Reprint.Proofs.Masking
import Reprint.Proofs.Visiting
import Reprint.Proofs.LineColumn
