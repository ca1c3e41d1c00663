import Marginalia.Edit.Delta
import Marginalia.Describe.Report
import Marginalia.Describe.Options
import Marginalia.Failure.Format
import Marginalia.Session.Replay
import Marginalia.Proofs.Edit.Layout
import Marginalia.Proofs.Document
import Marginalia.Proofs.Edit.Image
import Marginalia.Proofs.Engine.RunOrder
import Marginalia.Proofs.Store.Marks
import Marginalia.Proofs.Engine.Panel
import Marginalia.Proofs.Store.Chaining
import Marginalia.Proofs.Edit.Untouched
import Marginalia.Proofs.Text.Line
import Marginalia.Proofs.Text.Tiling
import Marginalia.Proofs.View.Gutter
import Marginalia.Proofs.Engine.Gutter
import Marginalia.Proofs.Json.Number
import Marginalia.Proofs.Json.Quoted
import Marginalia.Proofs.Json.RoundTrip
import Marginalia.Proofs.Json.Record
import Marginalia.Proofs.Failure.RoundTrip
import Marginalia.Proofs.Text.Bytes
import Marginalia.Proofs.Edit.Join
import Marginalia.Proofs.Edit.Turns
import Marginalia.Proofs.Edit.InTurn
import Marginalia.Proofs.Edit.Pieces
import Marginalia.Proofs.Edit.Conflict
import Marginalia.Proofs.Edit.Delta
import Marginalia.Proofs.Edit.Order
import Marginalia.Proofs.View.LeastPatch
import Marginalia.Proofs.Engine.Gathering
import Marginalia.Proofs.Engine.Replacement
import Marginalia.Proofs.Engine.Silence
import Marginalia.Proofs.Engine.Erasure
import Marginalia.Proofs.Session.Run
import Marginalia.Proofs.Session.Deadline
import Marginalia.Proofs.Edit.Chaining
import Marginalia.Proofs.Edit.InPlace
import Marginalia.Proofs.Edit.Tally
import Marginalia.Proofs.Store.Check
import Marginalia.Proofs.Engine.Dispatch
import Marginalia.Proofs.Store.Selection
import Marginalia.Proofs.Store.Blank
import Marginalia.Proofs.View.Markers
import Marginalia.Proofs.Failure.Drafts
import Marginalia.Proofs.Store.Navigation
import Marginalia.Proofs.Engine.Navigation
import Marginalia.Proofs.View.PanelKeys
import Marginalia.Proofs.View.PanelReplay
import Marginalia.Proofs.Engine.PanelKeys
import Marginalia.Proofs.Store.Distinct
import Marginalia.Proofs.View.Merging
import Marginalia.Proofs.Engine.Pointer
import Marginalia.Proofs.Engine.Markers
import Marginalia.Proofs.View.Hover
import Marginalia.Proofs.Engine.Hover
import Marginalia.Proofs.Since
import Marginalia.Proofs.Timing.Lateness
import Marginalia.Proofs.View.UnderPointer
import Marginalia.Proofs.View.Resting
import Marginalia.Proofs.Engine.ViewUpdate
import Marginalia.Proofs.Json.Grammar
import Marginalia.Proofs.Report.AccessKey
import Marginalia.Proofs.View.Decoration
import Marginalia.Proofs.Json.Layout
import Marginalia.Proofs.Failure.Layout
import Marginalia.Proofs.Failure.Spellings
