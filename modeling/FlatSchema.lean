import FlatSchema.Document.Printer
import FlatSchema.Generation
import FlatSchema.Loading
import FlatSchema.Output.FileTree
import FlatSchema.Proofs.Confinement
import FlatSchema.Proofs.DeclarationOrder
import FlatSchema.Proofs.Evolution
import FlatSchema.Proofs.FieldNames
import FlatSchema.Proofs.FlatNames
import FlatSchema.Proofs.GoImports
import FlatSchema.Proofs.JsonSchemaFile
import FlatSchema.Proofs.ParameterNames
import FlatSchema.Proofs.PlanAgreement
import FlatSchema.Proofs.Columns
import FlatSchema.Proofs.TypeText
import FlatSchema.Proofs.UnionText
import FlatSchema.Proofs.DocumentText
import FlatSchema.Proofs.EnumValues
import FlatSchema.Proofs.Numerals
import FlatSchema.Proofs.MemberDefaults
import FlatSchema.Proofs.Constants
import FlatSchema.Proofs.EnumBounds
import FlatSchema.Proofs.Redeclaration
import FlatSchema.Proofs.EnumLiterals
import FlatSchema.Proofs.ByteCount
import FlatSchema.Proofs.GoConstants
import FlatSchema.Proofs.DocComments
import FlatSchema.Proofs.NamespaceStatements
import FlatSchema.Proofs.TypeGrammar
import FlatSchema.Proofs.Rechecks
import FlatSchema.Proofs.TablePlan
import FlatSchema.Proofs.InterruptedWrites
import FlatSchema.Proofs.Packages
import FlatSchema.Proofs.CaseForms
import FlatSchema.Proofs.ReservedWords
import FlatSchema.Proofs.Substitution
import FlatSchema.Proofs.QualifiedNames
import FlatSchema.Proofs.MemoryFiles
