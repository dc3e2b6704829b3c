import Conformance.Host
import Conformance.Proofs.Configuration
/-! The first session wins. A process makes its calls one after another: some ask for a session,
some look at the session that is kept. Whatever the order, the session of the first call that asks
for one is the one that every later call meets: it has the layout, the bounds and the memory that
this call asked for. -/
namespace Conformance

/-- A call that a process makes on its host. -/
inductive HostCall where
  /-- Asks for a session on the process itself, as its environment configures it. -/
  | setup (environment : String → Option String)
  /-- Asks for a session on the process itself. -/
  | installLive (config : Config)
  /-- Asks for a session on a given memory. -/
  | installWith (config : Config) (source : Source)
  /-- Looks up the session that is kept. -/
  | lookUp
  /-- Asks whether the type of an object declares a protocol. -/
  | conforms (object protocol : Address)

/-- What a call gives back. -/
inductive HostReply where
  | done
  | session (kept : Option Session)
  | answer (conforms : Bool)

namespace HostCall

/-- A call looks at the session that is kept, and asks for none. -/
def Looks : HostCall → Prop
  | setup _ | installLive _ | installWith _ _ => False
  | lookUp | conforms _ _ => True

/-- A call asks for a session of a configuration on a memory. Unless the memory is given, it is that
of the process, read through the kernel without a region map. -/
inductive Asks (kernel : Reader) : HostCall → Config → Source → Prop where
  | setup {environment : String → Option String} {config : Config}
      (reflects : config.Reflects environment) :
      Asks kernel (.setup environment) config (LiveMemory.source ⟨none⟩ kernel)
  | installLive (config : Config) :
      Asks kernel (.installLive config) config (LiveMemory.source ⟨none⟩ kernel)
  | installWith (config : Config) (source : Source) :
      Asks kernel (.installWith config source) config source

/-- The reply to a call that leaves a given session kept, or none. -/
def replyWith (kept : Option Session) : HostCall → HostReply
  | setup _ => .done
  | installLive _ => .session kept
  | installWith _ _ => .session kept
  | lookUp => .session kept
  | conforms object protocol =>
      match kept with
      | some session => .answer (session.verdict object protocol).conforms
      | none => .answer false

theorem exists_asks_of_not_looks (kernel : Reader) (call : HostCall) (hLooks : ¬call.Looks) :
    ∃ config source, call.Asks kernel config source := by
  cases call with
  | setup environment => exact ⟨_, _, .setup (Config.reflects_ofEnvironment environment)⟩
  | installLive config => exact ⟨_, _, .installLive config⟩
  | installWith config source => exact ⟨_, _, .installWith config source⟩
  | lookUp | conforms => exact absurd trivial hLooks

end HostCall

namespace Host

/-- The host after a call, and what the call gives back. -/
def perform (host : Host) : HostCall → Host × HostReply
  | .setup environment => (host.setup environment, .done)
  | .installLive config =>
      let next := host.installLive config
      (next, .session next.session)
  | .installWith config source =>
      let next := host.installWith config source
      (next, .session next.session)
  | .lookUp => (host, .session host.session)
  | .conforms object protocol => (host, .answer (host.conforms object protocol))

/-- The host after a run of calls, and what the calls give back. -/
def performAll (host : Host) : List HostCall → Host × List HostReply
  | [] => (host, [])
  | call :: calls =>
      let (next, reply) := host.perform call
      let (last, replies) := next.performAll calls
      (last, reply :: replies)

variable {platform : Platform} {kernel : Reader} {session : Session} {call : HostCall}
  {config : Config} {source : Source}

theorem perform_of_looks {kept : Option Session} (looks : call.Looks) :
    (Host.mk platform kernel kept).perform call =
      (⟨platform, kernel, kept⟩, call.replyWith kept) := by
  cases call with
  | setup | installLive | installWith => cases looks
  | lookUp => rfl
  | conforms => cases kept <;> rfl

/-- A call that asks for a session is given it if there is none yet. -/
theorem perform_of_asks (asks : call.Asks kernel config source) :
    let session : Session := ⟨.ofSelection platform config.selection, source, config.limits⟩
    (start platform kernel).perform call =
      (⟨platform, kernel, some session⟩, call.replyWith (some session)) := by
  cases asks with
  | @setup environment _ reflects =>
      rw [reflects.unique (Config.reflects_ofEnvironment environment)]
      rfl
  | installLive | installWith => rfl

/-- A session that is kept stays, whatever is asked for. -/
theorem perform_of_kept (session : Session) (call : HostCall) :
    (Host.mk platform kernel (some session)).perform call =
      (⟨platform, kernel, some session⟩, call.replyWith (some session)) := by
  cases call <;> rfl

theorem performAll_cons {host next last : Host} {reply : HostReply} {calls : List HostCall}
    {replies : List HostReply} (hFirst : host.perform call = (next, reply))
    (hLater : next.performAll calls = (last, replies)) :
    host.performAll (call :: calls) = (last, reply :: replies) := by
  rw [performAll, hFirst]
  dsimp only
  rw [hLater]

theorem performAll_append {host middle last : Host} {before later : List HostCall}
    {replies more : List HostReply} (hBefore : host.performAll before = (middle, replies))
    (hLater : middle.performAll later = (last, more)) :
    host.performAll (before ++ later) = (last, replies ++ more) := by
  induction before generalizing host replies with
  | nil =>
      cases hBefore
      exact hLater
  | cons call calls ih =>
      cases hBefore
      exact performAll_cons rfl (ih rfl)

/-- A host that each call leaves as it is is left as it is by all of them. -/
theorem performAll_of_steady {kept : Option Session} {calls : List HostCall}
    (steady : ∀ call ∈ calls, (Host.mk platform kernel kept).perform call =
      (⟨platform, kernel, kept⟩, call.replyWith kept)) :
    (Host.mk platform kernel kept).performAll calls =
      (⟨platform, kernel, kept⟩, calls.map (·.replyWith kept)) := by
  induction calls with
  | nil => rfl
  | cons call calls ih =>
      obtain ⟨first, later⟩ := List.forall_mem_cons.mp steady
      exact performAll_cons first (ih later)

/-- As long as no call has asked for a session there is none: nothing is looked up, and no object
conforms. The first call that asks for one is given it, with the layout that its configuration
selects on the platform, with its bounds and its memory, and from then on every call meets this
session, whatever it asks for itself. -/
theorem performAll_start (platform : Platform) (kernel : Reader) (before later : List HostCall)
    (looks : ∀ call ∈ before, call.Looks) :
    (start platform kernel).performAll before =
        (start platform kernel, before.map (·.replyWith none)) ∧
      ∀ first : HostCall, ¬first.Looks → ∃ config source, first.Asks kernel config source ∧
        let session : Session := ⟨.ofSelection platform config.selection, source, config.limits⟩
        (start platform kernel).performAll (before ++ first :: later) =
            (⟨platform, kernel, some session⟩,
              before.map (·.replyWith none) ++
                (first :: later).map (·.replyWith (some session))) ∧
          session.Serves platform config source := by
  have hBefore : (start platform kernel).performAll before =
      (start platform kernel, before.map (·.replyWith none)) :=
    performAll_of_steady fun call hCall => perform_of_looks (looks call hCall)
  refine ⟨hBefore, fun first hLooks => ?_⟩
  obtain ⟨config, source, asks⟩ := HostCall.exists_asks_of_not_looks kernel first hLooks
  refine ⟨config, source, asks, ?_, Session.serves_ofSelection⟩
  refine performAll_append hBefore (performAll_cons (perform_of_asks asks) ?_)
  exact performAll_of_steady fun call _ => perform_of_kept _ call

/-- A session on a given memory, after two calls that find none, and before two that ask for another
one. The object conforms in that memory; the process itself lets nothing be read. -/
theorem performAll_start_given :
    let memory := Source.periodic #[0, 0, 0, 0, 8, 0, 0, 0, 0, 0, 0, 0, 0, 0, 0, 0,
      0x14, 0, 0, 0, 1, 0, 0, 0, 0x20, 0, 0, 0, 0, 0, 0, 0]
    let config : Config := ⟨.fixed .compact32, .default⟩
    let before := [.lookUp, .conforms 4 0x20]
    let later := [.setup fun _ => none, .installLive .default, .conforms 4 0x20, .lookUp]
    let session : Session := ⟨.resolved .compact32 (.compact .four), memory, .default⟩
    ((start .appleArm64 fun _ _ => none).performAll
        (before ++ .installWith config memory :: later)).2 =
      [.session none, .answer false, .session (some session), .done, .session (some session),
        .answer true, .session (some session)] := by
  intro memory config before later session
  have looks : ∀ call ∈ before, call.Looks :=
    List.forall_mem_cons.mpr ⟨trivial, List.forall_mem_singleton.mpr trivial⟩
  obtain ⟨-, hFirst⟩ := performAll_start .appleArm64 (fun _ _ => none) before later looks
  obtain ⟨_, _, asks, hRun, serves⟩ := hFirst (.installWith config memory) (fun h => h)
  cases asks
  have hConforms : (session.verdict 4 0x20).conforms = true :=
    ((serves.answers .compact32 (.fixed _ _)).conforms 4 0x20).trans (by decide +kernel)
  rw [hRun]
  change [_, _, _, _, _, HostReply.answer (session.verdict 4 0x20).conforms, _] = _
  rw [hConforms]
  rfl

end Host

end Conformance
