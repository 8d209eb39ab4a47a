import Xqdb.Batches
import Xqdb.Connector.Boundaries
import Xqdb.Connector.Dialogue
import Xqdb.Connector.Pairing
import Xqdb.Io.Kxzip
import Xqdb.Js.Facade
import Xqdb.Js.Lambda
import Xqdb.Js.Lossless
import Xqdb.Js.Objects
import Xqdb.Native.Agreement
import Xqdb.Native.Meaning
import Xqdb.Node.Admission
import Xqdb.Node.Cancel
import Xqdb.Node.Slots
import Xqdb.Python.Guid
import Xqdb.Python.RoundTrip
import Xqdb.QValue.Build
import Xqdb.ScanPrefixes
import Xqdb.StringRows
import Xqdb.TablePanics
import Xqdb.TableRoundTrip
import Xqdb.TemporalValues
