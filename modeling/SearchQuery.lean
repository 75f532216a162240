import SearchQuery.Main
import SearchQuery.Proofs.Expr.Bracketing
import SearchQuery.Proofs.Init
import SearchQuery.Proofs.Parser.Boosts
import SearchQuery.Proofs.Parser.Calls
import SearchQuery.Proofs.Parser.Depth
import SearchQuery.Proofs.Parser.Ending
import SearchQuery.Proofs.Parser.Forced
import SearchQuery.Proofs.Parser.Grouping
import SearchQuery.Proofs.Parser.NestedSigns
import SearchQuery.Proofs.Parser.Normal
import SearchQuery.Proofs.Parser.Precedence
import SearchQuery.Proofs.Query.Numbering
import SearchQuery.Proofs.Query.Reads
import SearchQuery.Proofs.Query.Refused
import SearchQuery.Proofs.Query.Shingled
import SearchQuery.Proofs.Query.Unshingled
import SearchQuery.Proofs.Reading.Exact
import SearchQuery.Proofs.Report
import SearchQuery.Proofs.Report.Caret
import SearchQuery.Proofs.Settings.Precedence
import SearchQuery.Proofs.Settings.Written
import SearchQuery.Proofs.Token.Boundary
import SearchQuery.Proofs.Token.Determined
import SearchQuery.Proofs.Token.Phrase
