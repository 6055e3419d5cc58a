import Listing.Main
import Listing.Proofs.Annotations
import Listing.Proofs.BoundValues
import Listing.Proofs.Building
import Listing.Proofs.ClauseOrder
import Listing.Proofs.Dialects
import Listing.Proofs.Failures
import Listing.Proofs.Fetching
import Listing.Proofs.FilterEntries
import Listing.Proofs.Grouping
import Listing.Proofs.InertEntries
import Listing.Proofs.Marks
import Listing.Proofs.Noninterference
import Listing.Proofs.Numerals
import Listing.Proofs.Paging
import Listing.Proofs.PatternMatching
import Listing.Proofs.Recomposition
import Listing.Proofs.Restriction
import Listing.Proofs.SortReading
import Listing.Proofs.Splicing
import Listing.Proofs.Trailers
import Listing.Proofs.Transparency
import Listing.Proofs.Unbounded
import Listing.Proofs.Vetting
