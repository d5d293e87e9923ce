import IthmbPlugin.Library.Runs
import IthmbPlugin.Library.Ownership
import IthmbPlugin.Library.AllocTrace
import IthmbPlugin.Library.MachineInt
import IthmbPlugin.Library.Utf16
import IthmbPlugin.Library.ByteStream
import IthmbPlugin.Library.OnceCell
import IthmbPlugin.Library.Utf8Text
import IthmbPlugin.Library.AsciiCase
import IthmbPlugin.Library.Clients
import IthmbPlugin.Library.AtomicObject
import IthmbPlugin.Library.Ranked
import IthmbPlugin.Library.Mutex
import IthmbPlugin.Library.ReprC
import IthmbPlugin.Library.Spans
import IthmbPlugin.Types
import IthmbPlugin.Strings
import IthmbPlugin.FileIo
import IthmbPlugin.Registry
import IthmbPlugin.Allocator
import IthmbPlugin.Decode
import IthmbPlugin.DecodeContract
import IthmbPlugin.Calls
import IthmbPlugin.Sequential
import IthmbPlugin.Discipline
import IthmbPlugin.Tracking
import IthmbPlugin.StaleHandle
import IthmbPlugin.State
import IthmbPlugin.EntryPoint
import IthmbPlugin.Extension
import IthmbPlugin.Metadata
import IthmbPlugin.MetadataContract
import IthmbPlugin.Dimensions
import IthmbPlugin.RegistryHistory
import IthmbPlugin.FreeOrder
import IthmbPlugin.ExtensionLog
import IthmbPlugin.FileLimit
import IthmbPlugin.FileRace
import IthmbPlugin.Readers
import IthmbPlugin.Pixels
import IthmbPlugin.Linearizable
import IthmbPlugin.RegistryThreads
import IthmbPlugin.Lifetime
import IthmbPlugin.Loaded
import IthmbPlugin.Shown
import IthmbPlugin.CopyBounds
import IthmbPlugin.Poisoned
import IthmbPlugin.LockedCalls
import IthmbPlugin.Phases
import IthmbPlugin.Footprint
import IthmbPlugin.AbiLayout
import IthmbPlugin.Requests
import IthmbPlugin.AbiSmoke
import IthmbPlugin.SmokeVerdict
