import Conformance.Memory.Live
import Conformance.Session
/-! The one session that a process keeps. The first session installed stays for good; whatever is
installed later is dropped. -/
namespace Conformance

/-- The process that queries run in: its platform, what its kernel answers, and the session it keeps
once one has been installed. -/
structure Host where
  platform : Platform
  kernel : Reader
  session : Option Session

namespace Host

/-- A host without a session. -/
def start (platform : Platform) (kernel : Reader) : Host := ⟨platform, kernel, none⟩

/-- Installs a session, unless there is one already. -/
def install (host : Host) (session : Session) : Host :=
  { host with session := host.session.or (some session) }

/-- Installs a session that reads a given memory. -/
def installWith (host : Host) (config : Config) (source : Source) : Host :=
  host.install (.ofConfig host.platform config source)

/-- Installs a session that reads the memory of the process itself. -/
def installLive (host : Host) (config : Config) : Host :=
  host.installWith config (LiveMemory.unfiltered.source host.kernel)

/-- Installs a session on the process itself, as its environment configures it. -/
def setup (host : Host) (environment : String → Option String) : Host :=
  host.installLive (.ofEnvironment environment)

/-- Whether the type of an object declares a protocol; no, as long as there is no session. -/
def conforms (host : Host) (object protocol : Address) : Bool :=
  match host.session with
  | some session => session.conforms object protocol
  | none => false

end Host

end Conformance
