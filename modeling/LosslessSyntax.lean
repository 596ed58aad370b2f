import LosslessSyntax.Builder
import LosslessSyntax.Document
import LosslessSyntax.Green.Content
import LosslessSyntax.Green.Leaves
import LosslessSyntax.Green.Outline
import LosslessSyntax.Green.Queue
import LosslessSyntax.Proofs.Builder.Client
import LosslessSyntax.Proofs.Builder.Event
import LosslessSyntax.Proofs.Builder.Fields
import LosslessSyntax.Proofs.Builder.Frames
import LosslessSyntax.Proofs.Builder.Interning
import LosslessSyntax.Proofs.Builder.Replay
import LosslessSyntax.Proofs.Builder.Twin
import LosslessSyntax.Proofs.Document.History
import LosslessSyntax.Proofs.Edit.Annotate
import LosslessSyntax.Proofs.Edit.AnyOrder
import LosslessSyntax.Proofs.Edit.Attach
import LosslessSyntax.Proofs.Edit.Climb
import LosslessSyntax.Proofs.Edit.Conflict
import LosslessSyntax.Proofs.Edit.Conserve
import LosslessSyntax.Proofs.Edit.Extent
import LosslessSyntax.Proofs.Edit.Growth
import LosslessSyntax.Proofs.Edit.Rebuild
import LosslessSyntax.Proofs.Edit.Renewal
import LosslessSyntax.Proofs.Edit.Room
import LosslessSyntax.Proofs.Edit.Substitution
import LosslessSyntax.Proofs.Edit.TextSplice
import LosslessSyntax.Proofs.Edit.Twin
import LosslessSyntax.Proofs.Edit.Undo
import LosslessSyntax.Proofs.Edit.Validate
import LosslessSyntax.Proofs.Edit.Verdict
import LosslessSyntax.Proofs.Green.Carried
import LosslessSyntax.Proofs.Green.Content
import LosslessSyntax.Proofs.Green.Descent
import LosslessSyntax.Proofs.Green.Ends
import LosslessSyntax.Proofs.Green.Equality
import LosslessSyntax.Proofs.Green.Exact
import LosslessSyntax.Proofs.Green.Form
import LosslessSyntax.Proofs.Green.Listing
import LosslessSyntax.Proofs.Green.Mint
import LosslessSyntax.Proofs.Green.Neighbours
import LosslessSyntax.Proofs.Green.Outline
import LosslessSyntax.Proofs.Green.Position
import LosslessSyntax.Proofs.Green.Reading
import LosslessSyntax.Proofs.Green.Registry
import LosslessSyntax.Proofs.Green.Route
import LosslessSyntax.Proofs.Green.Sound
import LosslessSyntax.Proofs.Green.Twin
import LosslessSyntax.Proofs.Green.WellFormed
import LosslessSyntax.Proofs.Kind.Members
import LosslessSyntax.Proofs.Path.Order
import LosslessSyntax.Proofs.Path.Spelling
import LosslessSyntax.Proofs.Session.Agree
import LosslessSyntax.Proofs.Session.Arena
import LosslessSyntax.Proofs.Session.Coherent
import LosslessSyntax.Proofs.Session.Collect
import LosslessSyntax.Proofs.Session.Covering
import LosslessSyntax.Proofs.Session.Derived
import LosslessSyntax.Proofs.Session.Earliest
import LosslessSyntax.Proofs.Session.Ends
import LosslessSyntax.Proofs.Session.Equality
import LosslessSyntax.Proofs.Session.Explore
import LosslessSyntax.Proofs.Session.Faultless
import LosslessSyntax.Proofs.Session.Finding
import LosslessSyntax.Proofs.Session.Fits
import LosslessSyntax.Proofs.Session.Following
import LosslessSyntax.Proofs.Session.Gather
import LosslessSyntax.Proofs.Session.Hull
import LosslessSyntax.Proofs.Session.Lineage
import LosslessSyntax.Proofs.Session.Lockstep
import LosslessSyntax.Proofs.Session.Occurrence
import LosslessSyntax.Proofs.Session.Offset
import LosslessSyntax.Proofs.Session.Outline
import LosslessSyntax.Proofs.Session.Pruning
import LosslessSyntax.Proofs.Session.Reached
import LosslessSyntax.Proofs.Session.Resolve
import LosslessSyntax.Proofs.Session.Run
import LosslessSyntax.Proofs.Session.Safe
import LosslessSyntax.Proofs.Session.SafeSearch
import LosslessSyntax.Proofs.Session.Search
import LosslessSyntax.Proofs.Session.Skip
import LosslessSyntax.Proofs.Session.Subtree
import LosslessSyntax.Proofs.Session.Survey
import LosslessSyntax.Proofs.Session.Tally
import LosslessSyntax.Proofs.Session.TextOrder
import LosslessSyntax.Proofs.Session.Token
import LosslessSyntax.Proofs.Session.TokenOrder
import LosslessSyntax.Proofs.Session.Tour
import LosslessSyntax.Proofs.Session.Trail
import LosslessSyntax.Proofs.Session.Traversal
import LosslessSyntax.Proofs.Session.Trimmed
import LosslessSyntax.Proofs.Session.Trip
import LosslessSyntax.Proofs.Session.Twin
import LosslessSyntax.Proofs.Session.Vacancy
import LosslessSyntax.Proofs.Session.Visit
import LosslessSyntax.Proofs.Session.Within
import LosslessSyntax.Proofs.Session.Yields
import LosslessSyntax.Proofs.Text.Lossless
import LosslessSyntax.Proofs.Text.Splice
import LosslessSyntax.Proofs.Text.Touching
import LosslessSyntax.Proofs.Workbench.Builder
import LosslessSyntax.Proofs.Workbench.Edited
import LosslessSyntax.Proofs.Workbench.Equality
import LosslessSyntax.Proofs.Workbench.Handles
import LosslessSyntax.Proofs.Workbench.Outline
import LosslessSyntax.Proofs.Workbench.Placing
import LosslessSyntax.Proofs.Workbench.Registry
import LosslessSyntax.Proofs.Workbench.Sharing
import LosslessSyntax.Proofs.Workbench.Sound
import LosslessSyntax.Proofs.Workbench.Step
import LosslessSyntax.Proofs.Workbench.Visits
import LosslessSyntax.Session.Collect
import LosslessSyntax.Session.Offset
import LosslessSyntax.Session.Place
import LosslessSyntax.View
