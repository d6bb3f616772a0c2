import StorageAtlas.CommandLine.Folder
import StorageAtlas.Fetch.Snapshot
import StorageAtlas.Main
import StorageAtlas.Proofs.Expansion
import StorageAtlas.Proofs.Loading
import StorageAtlas.Proofs.Packing
import StorageAtlas.Proofs.WorkStacks
import StorageAtlas.Proofs.Steps
import StorageAtlas.Proofs.Insertion
import StorageAtlas.Proofs.Parts
import StorageAtlas.Proofs.Nesting
import StorageAtlas.Proofs.Decimal
import StorageAtlas.Proofs.PathText
import StorageAtlas.Proofs.Agreement
import StorageAtlas.Proofs.Cutting
import StorageAtlas.Proofs.ValueTypes
import StorageAtlas.Proofs.Spelling
import StorageAtlas.Proofs.Rereading
import StorageAtlas.Proofs.DeclaredTypes
import StorageAtlas.Proofs.StoreOrder
import StorageAtlas.Proofs.Answers
import StorageAtlas.Proofs.ReadPlans
import StorageAtlas.Proofs.Settling
import StorageAtlas.Proofs.SharedReads
import StorageAtlas.Proofs.Windows
import StorageAtlas.Proofs.Writes
import StorageAtlas.Proofs.Encoding
import StorageAtlas.Proofs.Containment
import StorageAtlas.Proofs.Grammar
import StorageAtlas.Proofs.GrammarReading
import StorageAtlas.Proofs.Recursion
import StorageAtlas.Proofs.JobPool
import StorageAtlas.Proofs.Confluence
import StorageAtlas.Proofs.Retracing
import StorageAtlas.Proofs.ArrayElements
import StorageAtlas.Proofs.ReportedNames
import StorageAtlas.Proofs.Spans
import StorageAtlas.Proofs.LayoutExistence
import StorageAtlas.Proofs.Preimages
import StorageAtlas.Proofs.StoreHistory
import StorageAtlas.Proofs.HexWords
import StorageAtlas.Proofs.NodeReading
import StorageAtlas.Proofs.BrokenSlots
import StorageAtlas.Proofs.Readers
import StorageAtlas.Proofs.FirstFit
import StorageAtlas.Proofs.Calls
import StorageAtlas.Proofs.Endings
import StorageAtlas.Proofs.Pinning
import StorageAtlas.Proofs.Sessions
import StorageAtlas.Proofs.Composition
import StorageAtlas.Proofs.Numerals
import StorageAtlas.Proofs.KeyEncoding
import StorageAtlas.Proofs.StringKeys
import StorageAtlas.Proofs.PathReading
import StorageAtlas.Proofs.NumericSteps
import StorageAtlas.Proofs.Targets
import StorageAtlas.Proofs.Budget
import StorageAtlas.Proofs.WholeArrays
import StorageAtlas.Proofs.PreOrder
import StorageAtlas.Proofs.CompositeParts
import StorageAtlas.Proofs.Utf8
import StorageAtlas.Proofs.ByteStrings
import StorageAtlas.Proofs.Requests
import StorageAtlas.Proofs.ReadBounds
import StorageAtlas.Proofs.Upgrades
import StorageAtlas.Proofs.ManyContracts
import StorageAtlas.Proofs.DeclaredNames
import StorageAtlas.Proofs.Backoff
import StorageAtlas.Proofs.Documents
import StorageAtlas.Proofs.Searches
import StorageAtlas.Proofs.FieldOrder
import StorageAtlas.Proofs.NumberTexts
import StorageAtlas.Proofs.SerializedForms
import StorageAtlas.Proofs.WordSpellings
