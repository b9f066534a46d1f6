import Jord.Rc.Persist
import Jord.Rc.Readable
import Jord.Rc.Startup
import Jord.Rc.Collect
import Jord.Io.Agreement
import Jord.Io.Disturbance
import Jord.Io.Standard
import Jord.Io.Lifetime
import Jord.Io.Counting
import Jord.Io.LineIterators
import Jord.Rc.MakeRelative
import Jord.Io.DirectoryIteration
import Jord.Rc.Loader
import Jord.Rc.ConfigRobust
import Jord.Rc.TreeOperations
import Jord.Rc.Main
import Jord.Json.Evaluated
import Jord.Json.Plain
import Jord.Base.DeepCopy
import Jord.Base.FastRoundTrip
import Jord.Io.Storage
