import TomlKeep.Binary64.Read
import TomlKeep.Main
import TomlKeep.Proofs.Lines
import TomlKeep.Proofs.Quotes
import TomlKeep.Proofs.Shape
import TomlKeep.Proofs.Literals
import TomlKeep.Proofs.Multiline
import TomlKeep.Proofs.Pieces
import TomlKeep.Proofs.Filling
import TomlKeep.Proofs.Cutting
import TomlKeep.Proofs.Targets
import TomlKeep.Proofs.Sequential
import TomlKeep.Proofs.Regions
import TomlKeep.Proofs.Spelling
import TomlKeep.Proofs.Trees
import TomlKeep.Proofs.ScalarLeaves
import TomlKeep.Proofs.StructuralChanges
import TomlKeep.Proofs.Overwriting
import TomlKeep.Proofs.FlatLayout
import TomlKeep.Proofs.FlatSaving
import TomlKeep.Proofs.Readers
import TomlKeep.Proofs.Strings
import TomlKeep.Proofs.KeyReading
import TomlKeep.Proofs.Brackets
import TomlKeep.Proofs.Blocks
import TomlKeep.Proofs.BlockPieces
import TomlKeep.Proofs.Entering
import TomlKeep.Proofs.ReadTrees
import TomlKeep.Proofs.Saving
import TomlKeep.Proofs.Unedited
import TomlKeep.Proofs.ExactDifferences
import TomlKeep.Proofs.Digits
import TomlKeep.Proofs.FloatText
import TomlKeep.Proofs.BareWords
import TomlKeep.Proofs.WrittenLines
import TomlKeep.Proofs.Regeneration
import TomlKeep.Proofs.Landing
import TomlKeep.Proofs.OtherValues
import TomlKeep.Proofs.Amending
import TomlKeep.Proofs.QuotedLines
import TomlKeep.Proofs.QuotedPatching
import TomlKeep.Proofs.FilledBlocks
import TomlKeep.Proofs.PatchedTrees
import TomlKeep.Proofs.LiteralLines
import TomlKeep.Proofs.PatchSoundness
import TomlKeep.Proofs.Writing
import TomlKeep.Proofs.KnownKeys
import TomlKeep.Proofs.PlainPaths
import TomlKeep.Proofs.QuotedPaths
import TomlKeep.Proofs.PathGrammar
import TomlKeep.Proofs.GoverningRules
import TomlKeep.Proofs.JsonNumbers
import TomlKeep.Proofs.JsonText
import TomlKeep.Proofs.ShownTrees
import TomlKeep.Proofs.ShownAgain
import TomlKeep.Proofs.ShortDecimals
import TomlKeep.Proofs.FormFrame
import TomlKeep.Proofs.LineKinds
import TomlKeep.Proofs.LiteralPatterns
import TomlKeep.Proofs.LiteralValues
import TomlKeep.Proofs.CapturedWords
import TomlKeep.Proofs.ResubmittedForms
import TomlKeep.Proofs.CheckedForms
import TomlKeep.Proofs.Retagging
import TomlKeep.Proofs.Passages
import TomlKeep.Proofs.EditLaws
import TomlKeep.Proofs.Utf8
import TomlKeep.Proofs.ClosingQuotes
import TomlKeep.Proofs.Offsets
import TomlKeep.Proofs.OffsetsAgree
import TomlKeep.Proofs.SafeOffsets
import TomlKeep.Proofs.SteppedOver
