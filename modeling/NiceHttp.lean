import NiceHttp.Stream
import NiceHttp.Words
import NiceHttp.Substr
import NiceHttp.HeaderBlock
import NiceHttp.Sent
import NiceHttp.Views
import NiceHttp.RoundTrip
import NiceHttp.Framing
import NiceHttp.Auth
import NiceHttp.Serving
import NiceHttp.Accepting
import NiceHttp.Ownership
import NiceHttp.Turns
import NiceHttp.Progress
import NiceHttp.Start
import NiceHttp.RemoteCall
import NiceHttp.Relay
import NiceHttp.Variants
import NiceHttp.Lib.Executor
import NiceHttp.Refinement
import NiceHttp.Behind
import NiceHttp.Futures
import NiceHttp.Live
