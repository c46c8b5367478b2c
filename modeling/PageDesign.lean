import PageDesign.Editor
import PageDesign.Files.Disk
import PageDesign.Main
import PageDesign.Markup.Stored
import PageDesign.Node.Alike
import PageDesign.Node.Query
import PageDesign.Proofs.Command.Reformat
import PageDesign.Proofs.Command.Stats
import PageDesign.Proofs.Component.Documented
import PageDesign.Proofs.Component.Image
import PageDesign.Proofs.Component.OneOrMany
import PageDesign.Proofs.Component.Settings
import PageDesign.Proofs.Markup.Bracket
import PageDesign.Proofs.Markup.Found
import PageDesign.Proofs.Markup.Legible
import PageDesign.Proofs.Markup.Mismatch
import PageDesign.Proofs.Markup.Spelling
import PageDesign.Proofs.Markup.Tidy
import PageDesign.Proofs.Node.Change
import PageDesign.Proofs.Node.Commuting
import PageDesign.Proofs.Node.Undo
import PageDesign.Proofs.Palette.Stored
import PageDesign.Proofs.Text.Decoding
