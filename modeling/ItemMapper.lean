import ItemMapper.Mapper.Batch
import ItemMapper.Mapper.Search
import ItemMapper.Mapper.Transaction
import ItemMapper.Memory.Store
import ItemMapper.Json.Parser
import ItemMapper.Schema.Reader
import ItemMapper.Proofs.Assignments
import ItemMapper.Proofs.Conformance
import ItemMapper.Proofs.RoundTrip
import ItemMapper.Proofs.StoredAgain
import ItemMapper.Proofs.ExactTokens
import ItemMapper.Proofs.UniqueReading
import ItemMapper.Proofs.MemoryConditions
import ItemMapper.Proofs.MemoryUpdates
import ItemMapper.Proofs.Transactions
import ItemMapper.Proofs.KeyedStores
import ItemMapper.Proofs.UpdateFrames
import ItemMapper.Proofs.ReturnedKeys
import ItemMapper.Proofs.Paging
import ItemMapper.Proofs.AbsentPuts
import ItemMapper.Proofs.PathCaches
import ItemMapper.Proofs.FoundPuts
import ItemMapper.Proofs.TableMetadata
import ItemMapper.Proofs.DeclarationOrder
import ItemMapper.Proofs.PickedVariants
import ItemMapper.Proofs.SurveyedPositions
import ItemMapper.Proofs.ReachedPositions
import ItemMapper.Proofs.CompleteReports
import ItemMapper.Proofs.CalledValidators
import ItemMapper.Proofs.AcceptedUnions
import ItemMapper.Proofs.IndependentFields
import ItemMapper.Proofs.TwoReadings
import ItemMapper.Proofs.ReorderedItems
import ItemMapper.Proofs.SplitFilters
import ItemMapper.Proofs.StableWires
import ItemMapper.Proofs.WireJson
import ItemMapper.Proofs.RenamedTexts
import ItemMapper.Proofs.AimedActions
import ItemMapper.Proofs.RequiredAttributes
import ItemMapper.Proofs.UndefinedOperands
import ItemMapper.Proofs.ScalarBounds
import ItemMapper.Proofs.ReportedKinds
import ItemMapper.Proofs.StoredSets
import ItemMapper.Proofs.ChosenVariants
import ItemMapper.Proofs.GetterCalls
import ItemMapper.Proofs.FilledDefaults
import ItemMapper.Proofs.TokenAdditions
import ItemMapper.Proofs.DateRange
import ItemMapper.Proofs.PayloadTexts
import ItemMapper.Proofs.BestEntries
