import Bsdi.Db.Btree.Prefix
import Bsdi.Db.Btree.FastSearch
import Bsdi.Db.Btree.CursorSplit
import Bsdi.Db.Btree.Forward
import Bsdi.Db.Btree.CursorPut
import Bsdi.Db.Btree.Layouts
import Bsdi.Pax.Tar
import Bsdi.Pax.Cpio
import Bsdi.Net.RoundTrip
import Bsdi.Db.Mpool.Filter
import Bsdi.Compact.Runs
import Bsdi.Regex.Leftmost
import Bsdi.Telnet.Agree
import Bsdi.Telnet.Cuts
import Bsdi.Sh.Lifo
import Bsdi.Pax.Devices
import Bsdi.Pax.NameSplit
import Bsdi.Pax.Append
import Bsdi.Pax.RepName
import Bsdi.Malloc.Contents
import Bsdi.Ed.Undo
import Bsdi.Quad.Signs
import Bsdi.Db.Recno.Fixed
import Bsdi.Db.Recno.Variable
import Bsdi.Db.Recno.Cursor
import Bsdi.Db.Hash.Addressing
import Bsdi.Db.Hash.ExactFit
import Bsdi.Mergesort.Stable
import Bsdi.Gen.Glob
import Bsdi.Gen.Unvis
import Bsdi.Gen.Modes
import Bsdi.Net.Expand
import Bsdi.Stdlib.Heapsort
import Bsdi.Stdlib.QsortSorted
import Bsdi.Stdlib.RadixsortSorted
import Bsdi.Dd.Swab
import Bsdi.Sh.Patmatch
import Bsdi.Telnet.Netclear
import Bsdi.Sh.Operators
import Bsdi.Sh.Fields
import Bsdi.Sh.Input
import Bsdi.Sh.Poplocal
import Bsdi.Gen.Mktime
import Bsdi.Stdio.Printf
import Bsdi.Gen.Globexp
import Bsdi.Stdio.Scanning
import Bsdi.Gen.Cgetmatch
import Bsdi.Db.Btree.LeafLayout
import Bsdi.Net.InetAddr
import Bsdi.Net.NsAddr
