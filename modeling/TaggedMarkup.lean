import TaggedMarkup.Session
import TaggedMarkup.Value.Equality
import TaggedMarkup.Value.Record
import TaggedMarkup.Proofs.Template.Folding
import TaggedMarkup.Proofs.Cache.Contents
import TaggedMarkup.Proofs.Template.Transparency
import TaggedMarkup.Proofs.Host.Seen
import TaggedMarkup.Proofs.Render.Visit
import TaggedMarkup.Proofs.Host.OnTime
import TaggedMarkup.Proofs.Render.Asking
import TaggedMarkup.Proofs.Render.Lazy
import TaggedMarkup.Proofs.Render.Delivery
import TaggedMarkup.Proofs.Render.Preserved
import TaggedMarkup.Proofs.Render.Punctual
import TaggedMarkup.Proofs.Markup.Outline
import TaggedMarkup.Proofs.Host.Tasks
import TaggedMarkup.Proofs.Render.Lineups
import TaggedMarkup.Proofs.Markup.Writing
import TaggedMarkup.Proofs.Markup.Windows
import TaggedMarkup.Proofs.Markup.Characters
import TaggedMarkup.Proofs.Markup.Reading
import TaggedMarkup.Proofs.Markup.Reparsing
import TaggedMarkup.Proofs.Template.Blueprint
import TaggedMarkup.Proofs.Template.Printing
import TaggedMarkup.Proofs.Template.Replay
import TaggedMarkup.Proofs.Template.Handovers
import TaggedMarkup.Proofs.Template.Staticness
import TaggedMarkup.Proofs.Template.Lifetime
import TaggedMarkup.Proofs.Template.Accounts
import TaggedMarkup.Proofs.Template.Visits
import TaggedMarkup.Proofs.Template.Gluing
import TaggedMarkup.Proofs.Template.Fields
import TaggedMarkup.Proofs.Template.Closing
import TaggedMarkup.Proofs.Render.Fuel
import TaggedMarkup.Proofs.Render.Taking
import TaggedMarkup.Proofs.Render.Chunks
import TaggedMarkup.Proofs.Render.Portions
import TaggedMarkup.Proofs.Render.Wholeness
import TaggedMarkup.Proofs.Cache.Register
import TaggedMarkup.Proofs.Cache.Policy
import TaggedMarkup.Proofs.Cache.Insertion
import TaggedMarkup.Proofs.Template.Quotes
import TaggedMarkup.Proofs.Render.Calm
import TaggedMarkup.Proofs.Render.Passages
import TaggedMarkup.Proofs.Render.Steady
import TaggedMarkup.Proofs.Render.Admission
import TaggedMarkup.Proofs.Render.Ahead
import TaggedMarkup.Proofs.Render.Windowed
import TaggedMarkup.Proofs.Host.Checking
import TaggedMarkup.Proofs.Render.Checks
import TaggedMarkup.Proofs.Value.Twins
import TaggedMarkup.Proofs.Template.Literals
import TaggedMarkup.Proofs.Template.Twins
import TaggedMarkup.Proofs.Host.Twins
import TaggedMarkup.Proofs.Render.Visits
import TaggedMarkup.Proofs.Render.Twins
import TaggedMarkup.Proofs.Host.Uniform
import TaggedMarkup.Proofs.Render.Runs
import TaggedMarkup.Proofs.Render.Through
import TaggedMarkup.Proofs.Render.Seamless
import TaggedMarkup.Proofs.Render.Courses
import TaggedMarkup.Proofs.Render.Histories
import TaggedMarkup.Proofs.Render.Drawing
import TaggedMarkup.Proofs.Render.Lives
import TaggedMarkup.Proofs.Render.Civil
import TaggedMarkup.Proofs.Render.Roots
import TaggedMarkup.Proofs.Markup.Stillness
import TaggedMarkup.Proofs.Number.Integers
import TaggedMarkup.Proofs.Value.Json
import TaggedMarkup.Proofs.Markup.JsonForm
import TaggedMarkup.Proofs.Text.Trimming
import TaggedMarkup.Proofs.Template.Shapes
import TaggedMarkup.Proofs.Template.Keeping
import TaggedMarkup.Proofs.Template.Saving
import TaggedMarkup.Proofs.Template.Merging
import TaggedMarkup.Proofs.Host.Telling
import TaggedMarkup.Proofs.Host.Seating
import TaggedMarkup.Proofs.Host.Respecting
import TaggedMarkup.Proofs.Render.Attendance
import TaggedMarkup.Proofs.Render.Departure
import TaggedMarkup.Proofs.Render.Meanwhile
import TaggedMarkup.Proofs.Render.Poise
import TaggedMarkup.Proofs.Render.Tree
import TaggedMarkup.Proofs.Render.Yield
import TaggedMarkup.Proofs.Render.Standing
import TaggedMarkup.Proofs.Render.Queueing
import TaggedMarkup.Proofs.Render.Faring
import TaggedMarkup.Proofs.Render.Working
import TaggedMarkup.Proofs.Render.Ending
import TaggedMarkup.Proofs.Render.Streaming
import TaggedMarkup.Proofs.Render.Census
import TaggedMarkup.Proofs.Render.Wrapping
import TaggedMarkup.Proofs.Render.Origins
import TaggedMarkup.Proofs.Render.Plans
import TaggedMarkup.Proofs.Render.Unfolding
import TaggedMarkup.Proofs.Render.Planned
import TaggedMarkup.Proofs.Render.Alarms
import TaggedMarkup.Proofs.Render.Ledgers
import TaggedMarkup.Proofs.Render.Following
import TaggedMarkup.Proofs.Render.Furthering
import TaggedMarkup.Proofs.Render.Resting
import TaggedMarkup.Proofs.Render.Finishing
import TaggedMarkup.Proofs.Template.Identities
import TaggedMarkup.Proofs.Value.Rereading
import TaggedMarkup.Proofs.Number.Magnitudes
import TaggedMarkup.Proofs.Number.Shortest
import TaggedMarkup.Proofs.Number.Numerals
import TaggedMarkup.Proofs.Text.Escaping
import TaggedMarkup.Proofs.Value.Equality
import TaggedMarkup.Proofs.Render.Fulfilled
import TaggedMarkup.Proofs.Render.Agreement
