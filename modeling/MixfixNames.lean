import MixfixNames.ModuleName.File
import MixfixNames.Grouping
import MixfixNames.Main
import MixfixNames.Name.Variation
import MixfixNames.Sequence
import MixfixNames.Proofs.Name.RawParts
import MixfixNames.Proofs.Token.Ending
import MixfixNames.Proofs.Token.Growth
import MixfixNames.Proofs.Name.FreeName
import MixfixNames.Proofs.Path.Entries
import MixfixNames.Proofs.Path.Ascent
import MixfixNames.Proofs.Path.Extension
import MixfixNames.Proofs.ModuleName.Located
import MixfixNames.Proofs.ModuleName.RoundTrip
import MixfixNames.Proofs.ModuleName.Collision
import MixfixNames.Proofs.ModuleName.Built
import MixfixNames.Proofs.ModuleName.ReadBack
import MixfixNames.Proofs.ModuleName.Written
import MixfixNames.Proofs.ModuleName.Outcome
import MixfixNames.Proofs.ModuleName.OfQualified
import MixfixNames.Proofs.Mark.Laws
import MixfixNames.Proofs.Ranges.Operations
import MixfixNames.Proofs.Ranges.Cover
import MixfixNames.Proofs.QualifiedName.Segments
import MixfixNames.Proofs.QualifiedName.Reading
import MixfixNames.Proofs.ModuleName.NamedFile
import MixfixNames.Proofs.Mark.Printed
import MixfixNames.Proofs.Token.ClosedForm
import MixfixNames.Proofs.Token.Root
import MixfixNames.Proofs.Name.Root
import MixfixNames.Proofs.Name.SharedRoot
import MixfixNames.Proofs.Name.ReadBack
import MixfixNames.Proofs.Scope.Naming
import MixfixNames.Proofs.Identity.Laws
import MixfixNames.Proofs.Name.Shape
import MixfixNames.Proofs.Name.OneToken
import MixfixNames.Proofs.Mark.Commutes
import MixfixNames.Proofs.Identity.Supplies
