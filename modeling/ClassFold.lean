import ClassFold.Command.Directory
import ClassFold.Main
import ClassFold.Transformer
import ClassFold.Proofs.Command.Success
import ClassFold.Proofs.Document.Cut
import ClassFold.Proofs.Bytes.Attributes
import ClassFold.Proofs.Bytes.Elements
import ClassFold.Proofs.Bytes.Edits
import ClassFold.Proofs.Bytes.Iteration
import ClassFold.Proofs.Bytes.Binding
import ClassFold.Proofs.Bytes.TagEnd
import ClassFold.Proofs.Markup.Values
import ClassFold.Proofs.Markup.Writing
import ClassFold.Proofs.Document.Frame
import ClassFold.Proofs.Document.Safety
import ClassFold.Proofs.Document.Scan
import ClassFold.Proofs.Document.Stages
import ClassFold.Proofs.Edit.Splice
import ClassFold.Proofs.Engine.Comparison
import ClassFold.Proofs.Engine.Prefix
import ClassFold.Proofs.Engine.Tokens
import ClassFold.Proofs.Engine.WordList
import ClassFold.Proofs.Options.Written
import ClassFold.Proofs.Rewriting.Entry
import ClassFold.Proofs.Rewriting.Folded
import ClassFold.Proofs.Text.Fragments
import ClassFold.Proofs.WellFormed.Expression
import ClassFold.Proofs.WellFormed.Item
import ClassFold.Proofs.WellFormed.Judgement
import ClassFold.Proofs.WellFormed.Opening
import ClassFold.Proofs.WellFormed.Folding
import ClassFold.Proofs.WellFormed.Refolding
