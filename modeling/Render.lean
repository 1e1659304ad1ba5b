import Render.Dom.NamedAccess
import Render.H2.DecoderSync
import Render.H2.ReceiveWindow
import Render.Events.Order
import Render.Events.Rendering
import Render.Cache.PayloadCodec
import Render.Modules.Requests
import Render.Browser.EditorRuns
import Render.Html.Faithful
import Render.Js.BigIntIntegers
import Render.Dom.RangeText
import Render.Css.Winner
import Render.Net.CoalescedCalls
import Render.H2.HuffmanBijection
import Render.Js.BigIntChecked
import Render.Cache.MergedHeaders
import Render.Cache.DiskRecords
import Render.Dom.InsertReturns
import Render.Net.CookieRoundTrip
import Render.Dom.FormOwner
import Render.Js.PropertyKeys
import Render.Browser.Profile
import Render.Js.BigIntDigits
import Render.Js.RegexRepeat
import Render.Js.RegexCase
import Render.Temporal.Format
import Render.Modules.ImportTargets
import Render.Layout.LineStrictness
import Render.Layout.LineMarks
import Render.Css.Nth
import Render.Css.Relative
import Render.Css.ScopeChain
import Render.Layout.GridPlacement
import Render.Css.Nesting
import Render.Temporal.Rounding
import Render.Js.Escapes
import Render.Js.TextDecoder
import Render.Css.Rollback
import Render.Layout.TableGrid
import Render.Net.DataUrl
import Render.Net.ChainCookies
import Render.Dom.Identity
import Render.H2.HpackBounds
import Render.H2.StreamIds
