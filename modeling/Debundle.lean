import Debundle.Cases
import Debundle.Main
import Debundle.Tree.Describe
import Debundle.Proofs.Normal.Effects
import Debundle.Proofs.Bundle.Requires
import Debundle.Proofs.Bundle.Capture
import Debundle.Proofs.Run.Writes
import Debundle.Proofs.Bundle.Success
import Debundle.Proofs.Normal.Assignments
import Debundle.Proofs.Reading.Written
import Debundle.Proofs.Reading.Failures
import Debundle.Proofs.Writing.Blanks
import Debundle.Proofs.Writing.Callees
import Debundle.Proofs.Writing.Escapes
import Debundle.Proofs.Writing.Groupings
import Debundle.Proofs.Writing.Unbraced
import Debundle.Proofs.Bundle.Packages
import Debundle.Proofs.Bundle.Evidence
import Debundle.Proofs.Bundle.Outermost
import Debundle.Proofs.Token.LineBreaks
