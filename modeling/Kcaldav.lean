import Kcaldav.Ical.Lossless
import Kcaldav.Ical.Reload
import Kcaldav.Ical.Errno
import Kcaldav.Store.Outcome
import Kcaldav.Store.Atomicity
import Kcaldav.Concurrent.Replay
import Kcaldav.Concurrent.LostUpdate
import Kcaldav.Concurrent.Sync
import Kcaldav.Server.Methods
import Kcaldav.Server.Precondition
import Kcaldav.Server.Dynamic
import Kcaldav.Server.Main
import Kcaldav.Store.Frame
import Kcaldav.Server.Access
import Kcaldav.Server.Confinement
import Kcaldav.Ical.Open
import Kcaldav.Server.Passwd
import Kcaldav.Server.Stored
import Kcaldav.Concurrent.Settings
import Kcaldav.Ical.Folding
import Kcaldav.Ical.Layout
import Kcaldav.Ical.Delimited
import Kcaldav.Ical.Link
import Kcaldav.Ical.Register
import Kcaldav.Ical.Wellformed
import Kcaldav.Ical.Nesting
import Kcaldav.Ical.Scope
import Kcaldav.Ical.Above
import Kcaldav.Ical.Unknown
import Kcaldav.Ical.Order
import Kcaldav.Ical.Report
import Kcaldav.Server.Href
import Kcaldav.Caldav.Parse
import Kcaldav.Caldav.Chunks
import Kcaldav.Caldav.Absent
import Kcaldav.Caldav.Recorded
import Kcaldav.Caldav.Values
import Kcaldav.Caldav.Children
import Kcaldav.Server.Multistatus
import Kcaldav.Server.Delegation
import Kcaldav.Concurrent.NonceTable
import Kcaldav.Library.Version
import Kcaldav.Store.History
import Kcaldav.Server.Valid
import Kcaldav.Server.Addressable
import Kcaldav.Library.Numeral
import Kcaldav.Ical.Number
import Kcaldav.Ical.Date
import Kcaldav.Ical.Recur
import Kcaldav.Ical.Param
import Kcaldav.Server.Unprivileged
import Kcaldav.Store.Proxy
import Kcaldav.Ical.Field
import Kcaldav.Ical.Permute
import Kcaldav.Ical.Start
import Kcaldav.Ical.DurValue
import Kcaldav.Library.Buffer
import Kcaldav.Server.Conf
import Kcaldav.Server.Comment
import Kcaldav.Server.Configured
import Kcaldav.Server.Percent
import Kcaldav.Server.Spelling
import Kcaldav.Server.Proppatch
import Kcaldav.Server.Multiget
import Kcaldav.Library.Inverse
import Kcaldav.Ical.Utc
import Kcaldav.Concurrent.Linearizable
import Kcaldav.Concurrent.Isolation
import Kcaldav.Concurrent.Provenance
import Kcaldav.Library.Blocks
import Kcaldav.Concurrent.Once
import Kcaldav.Concurrent.Owner
import Kcaldav.Server.Gethash
