import WebKit.CoreIPC.MessageDelivery
import WebKit.IndexedDB.Indexes
import WebKit.IndexedDB.IndexLookup
import WebKit.JavaScriptCore.ArrayPrototype
import WebKit.JavaScriptCore.StructureRuns
import WebKit.JavaScriptCore.RestrictedArrays
import WebKit.Graphics.RegionCanonicity
import WebKit.HTML.HTMLInputStreamRuns
import WebKit.WebSockets.ExtensionHeaders
import WebKit.WebSockets.OutgoingFrames
import WebKit.WebSockets.ReceivedMessages
import WebKit.Platform.IntervalOverlaps
import WebKit.WTF.StringHasher
import WebKit.DFG.ReferenceCounts
import WebKit.JavaScriptCore.JSONPScripts
import WebKit.CSS.FastSelectors
import WebKit.CSS.FastReject
import WebKit.Text.TextCodecUTF8Runs
import WebKit.Page.SourceMatching
import WebKit.Platform.ThreadTimers
import WebKit.Loader.CacheRuns
import WebKit.JavaScriptCore.SparseLength
import WebKit.WTF.PageOccupancy
import WebKit.WTF.RedBlackRuns
import WebKit.IndexedDB.DatabaseNames
import WebKit.IndexedDB.AutoIncrement
import WebKit.IndexedDB.PointerReading
import WebKit.JavaScriptCore.PropertyHashRuns
import WebKit.JavaScriptCore.AllocatedArrayRuns
import WebKit.HTML.TimeRangesInversion
import WebKit.HTML.TimeRangesNearest
import WebKit.CoreIPC.MessageSizes
import WebKit.CoreIPC.DecodingSafety
import WebKit.HTML.NumericReferences
import WebKit.HTML.NamedReferences
import WebKit.HTML.NoahsArk
import WebKit.Storage.StorageMap
import WebKit.Page.SourceGrammar
import WebKit.Page.DatabaseIdentifiers
import WebKit.History.BackForwardListImpl
import WebKit.WTF.CheckedArithmetic
import WebKit.JavaScriptCore.DecimalNumbers
import WebKit.Platform.HTTPParsers
import WebKit.DOM.MarkerDetails
import WebKit.WTF.BitVectors
