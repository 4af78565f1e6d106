import Lumberjack.Client.Ports
import Lumberjack.Client.Machine

/-!
# `ClientBuilder::connect`

The builder's range is checked, the address resolved, the stream opened, from a port
of the range if there is one, and wrapped in TLS if that is configured. The system,
the resolver and the TLS library are parameters. A bound port is the local port of
the connection, except that binding port 0 leaves the choice to the system: so a
range is respected exactly when port 0 is not in it, or nothing is outside it.
-/
namespace Lumberjack.Client

open Lumberjack.Stream Lumberjack.Wire

/-- `ClientBuilder`, with the fields that only `connect` reads. Without the feature
`tls` there is no connector. -/
structure Builder (Connector : Type) extends ClientBuilder where
  localPortRange : Option (UInt16 × UInt16) := none
  tls : Option (Connector × String) := none

/-- What `connect` asks of its surroundings, besides the sockets of the scan:
`lookup_host`, `TcpStream::connect`, whether a domain is a `ServerName`, and the TLS
handshake over a stream. -/
structure Env (A Connector : Type) extends Os where
  lookupHost : A → Except IoError (List SocketAddr)
  tcpConnect : SocketAddr → Except IoError TcpStream
  isServerName : String → Bool
  handshake : Connector → String → TcpStream → Except IoError Unit

inductive BoxedStream where
  | plain (tcp : TcpStream)
  | tls (tcp : TcpStream)
  deriving DecidableEq

def BoxedStream.tcp : BoxedStream → TcpStream
  | .plain tcp => tcp
  | .tls tcp => tcp

/-- The `Client` that `connect` returns: its stream, what it keeps of the builder, and
the state its first send starts in. -/
structure Connected (T : Type) where
  stream : BoxedStream
  builder : ClientBuilder
  client : Client T

/-- A computation with `?` in it that may also panic. -/
abbrev Fallible (α : Type) := ExceptT Error Checked α

/-- A `Result` that no panic has preceded. -/
def ofResult {α : Type} (r : Result α) : Fallible α := ExceptT.mk (.ok r)

/-- An I/O error, as `?` and `map_err(Error::Io)` return it. -/
def ofIo {α : Type} : Except IoError α → Fallible α
  | .ok a => ofResult (.ok a)
  | .error e => ofResult (.error (.io e.msg))

namespace Builder

variable {A Connector T : Type}

/-- `local_port_range(start, end)` -/
def withLocalPortRange (b : Builder Connector) (start last : UInt16) : Builder Connector :=
  { b with localPortRange := some (start, last) }

def checkRange (b : Builder Connector) : Fallible Unit :=
  match b.localPortRange with
  | some (start, last) =>
    if start > last then ofResult (.error (.invalidConfig "local_port_range start > end"))
    else pure ()
  | none => pure ()

/-- The first address the name resolves to. -/
def resolve (env : Env A Connector) (addr : A) : Fallible SocketAddr := do
  match ← ofIo (env.lookupHost addr) with
  | target :: _ => pure target
  | [] => ofResult (.error (.invalidConfig "no addresses resolved"))

def openStream (env : Env A Connector) (rng : Rng) (b : Builder Connector) (target : SocketAddr) :
    Fallible TcpStream :=
  match b.localPortRange with
  | none => ofIo (env.tcpConnect target)
  | some (start, last) =>
    ExceptT.mk (Prod.snd <$> connectWithPortRange env.toOs rng target start last)

/-- The stream, or the TLS session over it. -/
def box (env : Env A Connector) (b : Builder Connector) (stream : TcpStream) :
    Fallible BoxedStream :=
  match b.tls with
  | none => pure (.plain stream)
  | some (connector, domain) =>
    if env.isServerName domain then do
      ofIo (env.handshake connector domain stream)
      pure (.tls stream)
    else ofResult (.error (.invalidConfig "invalid TLS server name"))

/-- `connect(addr)`; whether `set_nodelay` succeeds makes no difference to it. -/
def connect (T : Type) (env : Env A Connector) (rng : Rng) (b : Builder Connector) (addr : A) :
    Fallible (Connected T) := do
  b.checkRange
  let target ← resolve env addr
  let stream ← b.openStream env rng target
  let boxed ← b.box env stream
  pure ⟨boxed, b.toClientBuilder, init T⟩

end Builder

section Fallible

variable {α β : Type}

/-- The computation returns this value, with no error and no panic. -/
def Fallible.Returns (x : Fallible α) (a : α) : Prop := x.run = .ok (.ok a)

theorem Fallible.returns_bind {x : Fallible α} {f : α → Fallible β} {b : β} :
    (x >>= f).Returns b ↔ ∃ a, x.Returns a ∧ (f a).Returns b := by
  rw [Returns, ExceptT.run_bind]
  rcases hx : x.run with p | e | a
  · simp [Returns, hx, bind, Except.bind]
  · simp [Returns, hx, pure, Except.pure]
  · simp [Returns, hx]

theorem Fallible.returns_pure {a b : α} : (pure a : Fallible α).Returns b ↔ a = b := by
  constructor
  · intro h
    cases h
    rfl
  · intro h
    rw [h]
    rfl

theorem Fallible.not_returns_error {e : Error} {a : α} : ¬ (ofResult (.error e)).Returns a := by
  intro h
  cases h

theorem Fallible.returns_io {x : Except IoError α} {a : α} : (ofIo x).Returns a ↔ x = .ok a := by
  cases x with
  | ok b => simp [ofIo, ofResult, Returns, ExceptT.run, ExceptT.mk]
  | error e => simp [ofIo, not_returns_error]

end Fallible

section Returned

open Fallible

variable {A Connector T : Type} {env : Env A Connector} {rng : Rng} {b : Builder Connector}
  {target : SocketAddr} {stream : TcpStream} {start last : UInt16}

/-- The TLS session runs over the stream that was opened. -/
theorem box_tcp {boxed : BoxedStream} (h : (b.box env stream).Returns boxed) :
    boxed.tcp = stream := by
  unfold Builder.box at h
  split at h
  · rw [← returns_pure.mp h]
    rfl
  · split at h
    · obtain ⟨-, -, h⟩ := returns_bind.mp h
      rw [← returns_pure.mp h]
      rfl
    · exact absurd h not_returns_error

theorem checkRange_returns : (b.withLocalPortRange start last).checkRange.Returns () ↔ start ≤ last := by
  simp only [Builder.checkRange, Builder.withLocalPortRange]
  split
  · rename_i hgt
    simp only [not_returns_error, false_iff, UInt16.not_le]
    exact hgt
  · rename_i hle
    simp only [returns_pure, true_iff]
    exact UInt16.not_lt.mp hle

/-- The stream opened for a range is the one its scan ends with. -/
theorem openStream_returns :
    ((b.withLocalPortRange start last).openStream env rng target).Returns stream ↔
      ∃ tried, connectWithPortRange env.toOs rng target start last = .ok (tried, .ok stream) := by
  simp only [Builder.openStream, Builder.withLocalPortRange, Returns, ExceptT.run_mk]
  cases connectWithPortRange env.toOs rng target start last with
  | error p => simp [Functor.map, Except.map]
  | ok scanned =>
    simp only [Functor.map, Except.map, Except.ok.injEq, Prod.ext_iff]
    simp

theorem connect_returns {addr : A} {c : Connected T} :
    ((b.withLocalPortRange start last).connect T env rng addr).Returns c ↔
      start ≤ last ∧ ∃ target tried stream boxed, (Builder.resolve env addr).Returns target ∧
        connectWithPortRange env.toOs rng target start last = .ok (tried, .ok stream) ∧
        ((b.withLocalPortRange start last).box env stream).Returns boxed ∧
        c = ⟨boxed, b.toClientBuilder, init T⟩ := by
  simp only [Builder.connect, returns_bind, returns_pure, openStream_returns]
  constructor
  · intro h
    obtain ⟨⟨⟩, hr, target, ht, stream, ⟨tried, hs⟩, boxed, hb, hc⟩ := h
    exact ⟨checkRange_returns.mp hr, target, tried, stream, boxed, ht, hs, hb, hc.symm⟩
  · intro h
    obtain ⟨hle, target, tried, stream, boxed, ht, hs, hb, hc⟩ := h
    exact ⟨(), checkRange_returns.mpr hle, target, ht, stream, ⟨tried, hs⟩, boxed, hb, hc.symm⟩

end Returned

def TcpStream.localPort (s : TcpStream) : UInt16 := s.localAddr.port

/-- A connection from a bound port uses it; one from port 0 uses a port of the system's
choice. -/
structure Os.AssignsPorts (os : Os) : Prop where
  bound : ∀ {addr target s}, os.bind addr = .ok () → addr.port ≠ 0 →
    os.connect addr target = .ok s → s.localPort = addr.port
  ephemeral : ∀ {addr target s}, os.bind addr = .ok () → addr.port = 0 →
    os.connect addr target = .ok s → s.localPort ≠ 0

@[simp] theorem port_bindAddr (target : SocketAddr) (p : UInt16) : (bindAddr target p).port = p := by
  cases target <;> rfl

/-- A stream that a scan returns has a local port in the range, or it was connected from
port 0. -/
theorem scanned_localPort {os : Os} (ho : os.AssignsPorts) {rng : Rng} {target : SocketAddr}
    {start last : UInt16} (hle : start ≤ last) {tried : List UInt16} {s : TcpStream}
    (h : connectWithPortRange os rng target start last = .ok (tried, .ok s)) :
    start = 0 ∨ start ≤ s.localPort ∧ s.localPort ≤ last := by
  obtain ⟨count, tried', r, -, hspans, hrun, hscan⟩ := connectWithPortRange_scan os rng target hle
  cases hrun.symm.trans h
  obtain ⟨before, p, rfl, -, -, hb, hc⟩ := hscan.ok_iff.mp rfl
  have hmem : p ∈ before ++ [p] := List.mem_append_right before (List.mem_singleton_self p)
  have hp := hspans.mem_walk.mp (hscan.front.subset hmem)
  by_cases h0 : p = 0
  · left
    rw [h0] at hp
    exact UInt16.le_zero_iff.mp hp.1
  · right
    rw [ho.bound hb (by simpa using h0) hc, port_bindAddr]
    exact hp

section OnlyFree

variable {free ephemeral : UInt16} {target : SocketAddr} {ports tried : List UInt16}
  {r : Result TcpStream}

theorem onlyFree_assigns (free : UInt16) (h : ephemeral ≠ 0) :
    (Os.onlyFree free ephemeral).AssignsPorts where
  bound := by
    intro addr target s _ h0 hc
    cases hc
    simp [TcpStream.localPort, h0]
  ephemeral := by
    intro addr target s _ h0 hc
    cases hc
    simpa [TcpStream.localPort, h0] using h

theorem onlyFree_newSocket (target : SocketAddr) (p : UInt16) :
    newSocket (.onlyFree free ephemeral) target p = .ok () := by
  cases target <;> rfl

theorem onlyFree_connects (free ephemeral : UInt16) (target : SocketAddr) :
    (Os.onlyFree free ephemeral).Connects target free
      ⟨bindAddr (bindAddr target free) (if free = 0 then ephemeral else free)⟩ :=
  ⟨onlyFree_newSocket target free, by simp [Os.onlyFree], by simp [Os.onlyFree]⟩

theorem onlyFree_passes {p : UInt16} (h : p ≠ free) (target : SocketAddr) :
    (Os.onlyFree free ephemeral).Passes target p :=
  ⟨onlyFree_newSocket target p, .inl ⟨_, by simp only [Os.onlyFree, port_bindAddr, if_neg h]; rfl⟩⟩

/-- A scan over the free port finds it. -/
theorem onlyFree_scan (h : Scan (.onlyFree free ephemeral) target ports tried r)
    (hfree : free ∈ ports) :
    ∃ s, r = .ok s ∧ s.localPort = if free = 0 then ephemeral else free := by
  have hconn := (onlyFree_connects free ephemeral target).answer
  cases h with
  | exhausted hall => simp [(hall free hfree).answer] at hconn
  | @settled before rest p r hw hbefore hr =>
    by_cases hp : p = free
    · rw [hp, hconn] at hr
      cases hr
      exact ⟨_, rfl, port_bindAddr _ _⟩
    · simp [(onlyFree_passes hp target).answer] at hr

/-- That system, with a resolver that knows this target and a TLS library that accepts
everything. -/
def Env.onlyFree (Connector : Type) (free ephemeral : UInt16) (target : SocketAddr) :
    Env Unit Connector where
  toOs := .onlyFree free ephemeral
  lookupHost _ := .ok [target]
  tcpConnect _ := .ok ⟨bindAddr target ephemeral⟩
  isServerName _ := true
  handshake _ _ _ := .ok ()

/-- A builder whose range has the free port connects from it. -/
theorem onlyFree_connect (T : Type) {Connector : Type} (b : Builder Connector) (rng : Rng)
    (free ephemeral : UInt16) (target : SocketAddr) {start last : UInt16} (hfree : start ≤ free ∧ free ≤ last) :
    ∃ c : Connected T, ((b.withLocalPortRange start last).connect T
        (.onlyFree Connector free ephemeral target) rng ()).Returns c ∧
      c.stream.tcp.localPort = if free = 0 then ephemeral else free := by
  have hle : start ≤ last := UInt16.le_trans hfree.1 hfree.2
  obtain ⟨count, tried, r, -, hspans, hrun, hscan⟩ :=
    connectWithPortRange_scan (.onlyFree free ephemeral) rng target hle
  obtain ⟨s, rfl, hs⟩ := onlyFree_scan hscan (hspans.mem_walk.mpr hfree)
  obtain ⟨boxed, hbox⟩ : ∃ boxed, ((b.withLocalPortRange start last).box
      (.onlyFree Connector free ephemeral target) s).Returns boxed := by
    cases ht : (b.withLocalPortRange start last).tls with
    | none => exact ⟨.plain s, by simp [Builder.box, ht, Fallible.returns_pure]⟩
    | some tls =>
      refine ⟨.tls s, ?_⟩
      simp only [Builder.box, ht, Env.onlyFree, if_true]
      exact Fallible.returns_bind.mpr ⟨(), Fallible.returns_io.mpr rfl, Fallible.returns_pure.mpr rfl⟩
  refine ⟨⟨boxed, b.toClientBuilder, init T⟩, connect_returns.mpr ⟨hle, target, tried, s, boxed,
    rfl, hrun, hbox, rfl⟩, ?_⟩
  rw [box_tcp hbox]
  exact hs

end OnlyFree

theorem le_maxPort (p : UInt16) : p ≤ 65535 :=
  UInt16.le_iff_toNat_le.mpr (Nat.le_of_lt_succ p.toNat_lt)

/-- **A range of source ports is respected exactly when it does not have port 0, or has
every port.** -/
theorem connect_respects_range_iff {Connector : Type} (T : Type) (b : Builder Connector)
    (rng : Rng) (start last : UInt16) :
    (∀ (A : Type) (env : Env A Connector) (addr : A) (c : Connected T), env.toOs.AssignsPorts →
      ((b.withLocalPortRange start last).connect T env rng addr).Returns c →
      start ≤ c.stream.tcp.localPort ∧ c.stream.tcp.localPort ≤ last) ↔
    start ≠ 0 ∨ last = 65535 := by
  constructor
  · intro h
    by_contra hcond
    obtain ⟨h0, hlast⟩ := not_or.mp hcond
    -- every port but 0 is taken, and the system gives the highest port for 0
    have hfree : start ≤ 0 ∧ 0 ≤ last := ⟨UInt16.le_of_eq (not_not.mp h0), UInt16.zero_le⟩
    obtain ⟨c, hc, hport⟩ := onlyFree_connect T b rng 0 65535 (.v4 0x7f000001 5044) hfree
    have hbound := (h Unit _ () c (onlyFree_assigns 0 (by decide)) hc).2
    rw [hport, if_pos rfl] at hbound
    exact hlast (UInt16.le_antisymm (le_maxPort last) hbound)
  · intro hcond A env addr c ho hc
    obtain ⟨hle, target, tried, s, boxed, -, hrun, hbox, rfl⟩ := connect_returns.mp hc
    simp only [box_tcp hbox]
    rcases scanned_localPort ho hle hrun with h0 | hin
    · have hlast := hcond.resolve_left (not_not.mpr h0)
      rw [h0, hlast]
      exact ⟨UInt16.zero_le, le_maxPort _⟩
    · exact hin

/-- A range that starts at port 0, on a system that gives port 45000 for it. -/
theorem connect_outside_range :
    (Env.onlyFree Unit 0 45000 (.v4 0x7f000001 5044)).toOs.AssignsPorts ∧
      ∃ c : Connected Unit, ((({} : Builder Unit).withLocalPortRange 0 10).connect Unit
          (.onlyFree Unit 0 45000 (.v4 0x7f000001 5044)) (.fixed 0) ()).Returns c ∧
        ¬ (0 ≤ c.stream.tcp.localPort ∧ c.stream.tcp.localPort ≤ 10) := by
  refine ⟨onlyFree_assigns 0 (by decide), ⟨.plain ⟨.v4 0 45000⟩, {}, init Unit⟩, rfl, ?_⟩
  decide

end Lumberjack.Client
