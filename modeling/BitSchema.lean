import BitSchema.Main
import BitSchema.File.Map
import BitSchema.Proofs.LexicalScopes
import BitSchema.Proofs.EntryOrder
import BitSchema.Proofs.DecodedValues
import BitSchema.Proofs.EmptyMessages
import BitSchema.Proofs.EncoderFuel
import BitSchema.Proofs.OverwrittenTypes
import BitSchema.Proofs.DirectiveLimits
import BitSchema.Proofs.DiscriminantWidths
import BitSchema.Proofs.IndexReports
import BitSchema.Proofs.LoadOrder
import BitSchema.Proofs.ReferenceSites
import BitSchema.Proofs.SourceLiterals
import BitSchema.Proofs.NormalIncludes
import BitSchema.Proofs.ImportContainment
import BitSchema.Proofs.OutputFiles
import BitSchema.Proofs.HiddenDirectories
import BitSchema.Proofs.TextPackages
import BitSchema.Proofs.SourceSnippets
import BitSchema.Proofs.QuotedDocumentation
import BitSchema.Proofs.Lengths
