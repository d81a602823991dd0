import Marshal.Catalog.Hierarchy
import Marshal.Conversion.Debug
import Marshal.Export
import Marshal.Script
import Marshal.Proofs.Writing
import Marshal.Proofs.Emissions
import Marshal.Proofs.Levels
import Marshal.Proofs.Transactions
import Marshal.Proofs.Cycles
import Marshal.Proofs.Registration
import Marshal.Proofs.Hierarchies
import Marshal.Proofs.BuiltIns
import Marshal.Proofs.Callables
import Marshal.Proofs.Validation
import Marshal.Proofs.Layout
import Marshal.Proofs.Printing
import Marshal.Proofs.FunctionTexts
import Marshal.Proofs.Ancestry
import Marshal.Proofs.Peers
import Marshal.Proofs.Caching
import Marshal.Proofs.Receivers
import Marshal.Proofs.Embedding
import Marshal.Proofs.References
import Marshal.Proofs.Exporting
import Marshal.Proofs.Reordering
import Marshal.Proofs.Updates
import Marshal.Proofs.Assignability
import Marshal.Proofs.Lineages
import Marshal.Proofs.ValidHierarchies
import Marshal.Proofs.Growth
import Marshal.Proofs.Appending
import Marshal.Proofs.Rendering
import Marshal.Proofs.Searches
import Marshal.Proofs.Rollbacks
import Marshal.Proofs.Nesting
import Marshal.Proofs.Likeness
import Marshal.Proofs.Shadowing
import Marshal.Proofs.Indexing
import Marshal.Proofs.Names
import Marshal.Proofs.Parametricity
import Marshal.Proofs.Ascents
import Marshal.Proofs.Designations
import Marshal.Proofs.Factories
import Marshal.Proofs.ConfiguredNames
