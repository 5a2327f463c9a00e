import Brubeck.Bloom.Runs
import Brubeck.Carbon.Names
import Brubeck.Carbon.Drive
import Brubeck.Cell.Values
import Brubeck.Concurrent.Locks
import Brubeck.Concurrent.Slab
import Brubeck.Concurrent.Solo
import Brubeck.Concurrent.Traverse
import Brubeck.Counter
import Brubeck.Ftoa.Values
import Brubeck.Histogram.Window
import Brubeck.Http.Figures
import Brubeck.Limits
import Brubeck.Meter
import Brubeck.Dump
import Brubeck.Carbon.Plaintext
import Brubeck.Carbon.Frames
import Brubeck.Expiry
import Brubeck.Startup
import Brubeck.Load
import Brubeck.Outage
import Brubeck.Slab
import Brubeck.Secure.Sender
import Brubeck.Secure.Defined
import Brubeck.Secure.Hex
import Brubeck.Main
import Brubeck.Secure.Rolling
import Brubeck.Statsd.Consumed
import Brubeck.Statsd.Rates
import Brubeck.Statsd.Reads
import Brubeck.Statsd.Pool
