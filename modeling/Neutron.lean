import Neutron.FiniteTable
import Neutron.Handle
import Neutron.Registry
import Neutron.RegistryArrays
import Neutron.RegistryWindows
import Neutron.Channels
import Neutron.Execution
import Neutron.ChannelInvariant
import Neutron.RunQueue
import Neutron.Drive
import Neutron.ChannelFifo
import Neutron.ChannelHistory
import Neutron.Workers
import Neutron.Placement
import Neutron.PlacementSteps
import Neutron.Scheduling
import Neutron.SchedulingInvariant
import Neutron.SchedulingRun
import Neutron.RegistryEffects
import Neutron.RegistryRun
import Neutron.Abi
import Neutron.LeakReport
import Neutron.ArrayOwnership
import Neutron.ArrayRun
import Neutron.AsyncContext
import Neutron.AsyncWait
import Neutron.AsyncBranches
import Neutron.AbiCalls
import Neutron.KindSafety
import Neutron.AbiRun
import Neutron.IdleWord
import Neutron.Mirrors
import Neutron.Reactor
import Neutron.SharedQueue
import Neutron.Offload
import Neutron.OffloadRun
import Neutron.AtomicQueue
import Neutron.WorkStealing
import Neutron.OwnershipChecker
import Neutron.Behaviour
import Neutron.GenKill
import Neutron.OwnershipRuns
import Neutron.OwnershipFlow
import Neutron.OwnershipMoves
import Neutron.OwnershipSoundness
import Neutron.OwnershipLoops
import Neutron.Syntax
import Neutron.TypeNames
import Neutron.AsyncFields
import Neutron.GoCaptures
import Neutron.ReceiveTypes
import Neutron.ModuleAliases
import Neutron.ModuleGraph
import Neutron.ModuleReferences
import Neutron.NameCapture
import Neutron.EscapeAnalysis
import Neutron.ReferenceFlow
import Neutron.EscapeSoundness
import Neutron.Fuelled
import Neutron.Generics
import Neutron.PrepareProgram
import Neutron.Worklist
import Neutron.Supertraits
import Neutron.FileImports
import Neutron.Discovery
import Neutron.Divergence
import Neutron.SourceLines
import Neutron.SourceTree
import Neutron.SpanShift
import Neutron.SpanLocation
import Neutron.Lexer
import Neutron.TokenSpans
import Neutron.CursorParser
import Neutron.ParserTokens
import Neutron.ParserTypes
import Neutron.ParserExpressions
import Neutron.ParserStatements
import Neutron.ParserTotality
import Neutron.ProgramTotality
import Neutron.OperatorTrees
import Neutron.OperatorParsing
import Neutron.OperatorRoundTrip
import Neutron.PackageInstall
import Neutron.PackageIntegrity
import Neutron.LockfileMap
import Neutron.PackageRemove
import Neutron.RetryCode
import Neutron.TryCode
import Neutron.NameResolver
import Neutron.NameScoping
import Neutron.NameExactness
import Neutron.SlotResolution
import Neutron.DynDispatch
import Neutron.SuspensionPlacement
import Neutron.FieldDrops
import Neutron.InstanceOwners
import Neutron.FieldDropSoundness
import Neutron.ElementWrites
import Neutron.SliceChains
import Neutron.SliceLoops
import Neutron.SliceFailures
import Neutron.SliceCopy
import Neutron.CapabilityCache
import Neutron.InsertionOrder
import Neutron.ArraySorting
import Neutron.ArrayShuffle
import Neutron.BlockGraph
import Neutron.TwosComplement
import Neutron.IntegerCode
import Neutron.IntegerGuards
import Neutron.IntegerFaults
import Neutron.MatchCode
import Neutron.MatchArms
import Neutron.MatchSelection
import Neutron.PathComponents
import Neutron.Utf8Bytes
import Neutron.ArchiveReader
import Neutron.ArchiveBounds
import Neutron.ArchiveEnd
import Neutron.ArchiveContainment
import Neutron.PathRelative
import Neutron.RecvLine
import Neutron.RuntimeText
import Neutron.CsvRows
import Neutron.JsonGrammar
import Neutron.JsonParser
import Neutron.JsonReads
import Neutron.JsonAcceptance
import Neutron.JsonMeaning
import Neutron.JsonLookup
import Neutron.DocumentText
import Neutron.YamlDocument
import Neutron.CsvDocument
import Neutron.TomlDocument
import Neutron.HexEncoding
import Neutron.BinarySearch
import Neutron.PathNormalize
import Neutron.TimeFormat
import Neutron.WeightedChoice
import Neutron.TraitSignatures
import Neutron.Unification
import Neutron.Reinterpretation
import Neutron.GenericArguments
import Neutron.GenericsErrors
import Neutron.Implementations
import Neutron.InheritanceCycles
import Neutron.HttpResponse
import Neutron.Collections
import Neutron.WordStrings
import Neutron.VersionMatch
import Neutron.HttpMessage
import Neutron.HttpRequest
import Neutron.JsonPretty
import Neutron.JsonUnique
import Neutron.JsonDecoding
import Neutron.DiagnosticsJson
import Neutron.RegexSyntax
import Neutron.GlobPatterns
import Neutron.DocumentWriters
