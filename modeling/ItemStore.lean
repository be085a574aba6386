import ItemStore.Base64
import ItemStore.Binary64
import ItemStore.Binary64.Reading
import ItemStore.Binary64.Shortest
import ItemStore.Blog.Comment
import ItemStore.Blog.Post
import ItemStore.Blog.Review
import ItemStore.Client
import ItemStore.Condition
import ItemStore.Condition.Evaluation
import ItemStore.Condition.Parser
import ItemStore.Condition.Token
import ItemStore.Condition.Wire
import ItemStore.Criteria
import ItemStore.Criteria.Wire
import ItemStore.Cursor
import ItemStore.Decimal
import ItemStore.Decode
import ItemStore.Decode.Record
import ItemStore.Decode.Text
import ItemStore.Document
import ItemStore.Entity
import ItemStore.Json
import ItemStore.Json.Numeral
import ItemStore.Json.Printer
import ItemStore.Json.Reader
import ItemStore.Json.Source
import ItemStore.Json.Tagged
import ItemStore.Json.Token
import ItemStore.Key
import ItemStore.Key.Condition
import ItemStore.Key.Wire
import ItemStore.NameMap
import ItemStore.OrderedMap
import ItemStore.Page
import ItemStore.PrimaryKey
import ItemStore.Proofs.Base64
import ItemStore.Proofs.Bindings
import ItemStore.Proofs.BlogItems
import ItemStore.Proofs.BlogListings
import ItemStore.Proofs.BlogRun
import ItemStore.Proofs.CanonicalNumber
import ItemStore.Proofs.ComparisonLaws
import ItemStore.Proofs.ConditionText
import ItemStore.Proofs.ConditionTruth
import ItemStore.Proofs.CriteriaKey
import ItemStore.Proofs.CriteriaMeaning
import ItemStore.Proofs.CriteriaText
import ItemStore.Proofs.Cursor
import ItemStore.Proofs.CursorHistory
import ItemStore.Proofs.CursorPolls
import ItemStore.Proofs.Decimal
import ItemStore.Proofs.DecimalSpelling
import ItemStore.Proofs.DecimalText
import ItemStore.Proofs.DoubleNumber
import ItemStore.Proofs.DoubleText
import ItemStore.Proofs.Enumeration
import ItemStore.Proofs.Evaluation
import ItemStore.Proofs.FifteenDigits
import ItemStore.Proofs.FilterBindings
import ItemStore.Proofs.Grammar
import ItemStore.Proofs.GrammarComplete
import ItemStore.Proofs.IndexPages
import ItemStore.Proofs.IntegerText
import ItemStore.Proofs.Interleaving
import ItemStore.Proofs.ItemKey
import ItemStore.Proofs.KeptNumbers
import ItemStore.Proofs.KeyCondition
import ItemStore.Proofs.KeyFilter
import ItemStore.Proofs.KeyQuery
import ItemStore.Proofs.KeyShape
import ItemStore.Proofs.KeyValue
import ItemStore.Proofs.Listing
import ItemStore.Proofs.ListingCost
import ItemStore.Proofs.Loading
import ItemStore.Proofs.Membership
import ItemStore.Proofs.OrderedMap
import ItemStore.Proofs.Paging
import ItemStore.Proofs.PartitionPages
import ItemStore.Proofs.PlainData
import ItemStore.Proofs.ReadPaths
import ItemStore.Proofs.Record
import ItemStore.Proofs.RepositoryPut
import ItemStore.Proofs.RequestCriteria
import ItemStore.Proofs.RequestPages
import ItemStore.Proofs.RequestWire
import ItemStore.Proofs.RequiredFields
import ItemStore.Proofs.Result
import ItemStore.Proofs.Rounding
import ItemStore.Proofs.ShortestDigits
import ItemStore.Proofs.Source
import ItemStore.Proofs.Store
import ItemStore.Proofs.StoreRun
import ItemStore.Proofs.Table
import ItemStore.Proofs.TableMap
import ItemStore.Proofs.TableReads
import ItemStore.Proofs.TaggedValue
import ItemStore.Proofs.TextOrder
import ItemStore.Proofs.Token
import ItemStore.Proofs.TokenText
import ItemStore.Proofs.UnboundParameters
import ItemStore.Proofs.View
import ItemStore.Repository
import ItemStore.Request
import ItemStore.Request.Wire
import ItemStore.Settings
import ItemStore.Store
import ItemStore.Store.Error
import ItemStore.Table
import ItemStore.Text.Blank
import ItemStore.Text.Integer
import ItemStore.Text.Position
import ItemStore.Text.Printable
import ItemStore.Text.Quoted
import ItemStore.Validation
import ItemStore.Value
import ItemStore.Value.Codec
import ItemStore.Value.Wire
