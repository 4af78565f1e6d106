import Lumberjack.Process.Attempts
import Lumberjack.Stream.Checked
import Lumberjack.Wire.Inflate

/-!
# `connect_with_port_range`: the scan for a source port

From a random offset on, every port of the range is bound and connected from, until
one connects or one fails for a reason that another port would not cure. The machine
arithmetic on the ports is that of `Stream.Checked`. What the system answers is a
parameter, given for each port, since no port is asked twice; the ports tried are
returned beside the result, as history.
-/
namespace Lumberjack.Client

open Lumberjack.Stream Lumberjack.Wire

/-- `std::io::ErrorKind`, as far as the scan looks at it. -/
inductive ErrorKind where
  | addrInUse
  | addrNotAvailable
  | other
  deriving DecidableEq, Repr

structure IoError where
  kind : ErrorKind
  msg : String
  deriving DecidableEq, Repr

inductive SocketAddr where
  | v4 (ip : UInt32) (port : UInt16)
  | v6 (ip : BitVec 128) (port : UInt16)
  deriving DecidableEq, Repr

def SocketAddr.port : SocketAddr → UInt16
  | .v4 _ port => port
  | .v6 _ port => port

structure TcpStream where
  localAddr : SocketAddr
  deriving DecidableEq, Repr

/-- What the system answers: to creating the socket for a candidate port, to binding an
address, and to connecting from a bound address. -/
structure Os where
  newV4 : UInt16 → Except IoError Unit
  newV6 : UInt16 → Except IoError Unit
  bind : SocketAddr → Except IoError Unit
  connect : SocketAddr → SocketAddr → Except IoError TcpStream

/-- `thread_rng().gen_range(0..n)`, which is never asked for an empty range here. -/
structure Rng where
  genRange : UInt32 → UInt32
  below : ∀ n, 0 < n → genRange n < n

/-- The unspecified address of the target's family, with this port. -/
def bindAddr (target : SocketAddr) (port : UInt16) : SocketAddr :=
  match target with
  | .v4 _ _ => .v4 0 port
  | .v6 _ _ => .v6 0 port

def newSocket (os : Os) (target : SocketAddr) (port : UInt16) : Except IoError Unit :=
  match target with
  | .v4 _ _ => os.newV4 port
  | .v6 _ _ => os.newV6 port

/-- `(end - start) as u32 + 1` -/
def portCount (start last : UInt16) : Checked UInt32 := do
  let width ← Checked.subU16 last start
  Checked.addU32 width.toUInt32 1

/-- `start + ((offset + i) % count) as u16` -/
def candidate (start : UInt16) (count offset i : UInt32) : Checked UInt16 := do
  let sum ← Checked.addU32 offset i
  Checked.addU16 start (sum % count).toUInt16

/-- The loop of `connect_with_port_range` over the indices still to come, with the ports
tried so far. -/
def portLoop (os : Os) (target : SocketAddr) (start : UInt16) (count offset : UInt32) :
    List UInt32 → List UInt16 → Checked (List UInt16 × Result TcpStream)
  | [], tried => .ok (tried, .error .noLocalPortAvailable)
  | i :: is, tried => do
    let port ← candidate start count offset i
    match newSocket os target port with
    | .error e => .ok (tried ++ [port], .error (.io e.msg))
    | .ok () =>
      match os.bind (bindAddr target port) with
      | .error _ => portLoop os target start count offset is (tried ++ [port])
      | .ok () =>
        match os.connect (bindAddr target port) target with
        | .ok stream => .ok (tried ++ [port], .ok stream)
        | .error e =>
          if e.kind = .addrInUse ∨ e.kind = .addrNotAvailable then
            portLoop os target start count offset is (tried ++ [port])
          else .ok (tried ++ [port], .error (.io e.msg))

/-- `0..count` -/
def indices (count : UInt32) : List UInt32 := (List.range count.toNat).map UInt32.ofNat

def connectWithPortRange (os : Os) (rng : Rng) (target : SocketAddr) (start last : UInt16) :
    Checked (List UInt16 × Result TcpStream) := do
  let count ← portCount start last
  let offset := rng.genRange count
  portLoop os target start count offset (indices count) []

section Answer

variable (os : Os) (target : SocketAddr) (p : UInt16)

/-- The port cannot be bound, or it is found taken when connecting. -/
def Os.Passes : Prop :=
  newSocket os target p = .ok () ∧
    ((∃ e, os.bind (bindAddr target p) = .error e) ∨
      os.bind (bindAddr target p) = .ok () ∧ ∃ e, os.connect (bindAddr target p) target = .error e ∧
        (e.kind = .addrInUse ∨ e.kind = .addrNotAvailable))

def Os.Connects (stream : TcpStream) : Prop :=
  newSocket os target p = .ok () ∧ os.bind (bindAddr target p) = .ok () ∧
    os.connect (bindAddr target p) target = .ok stream

/-- Connecting fails for a reason other than the port. -/
def Os.Refuses (e : IoError) : Prop :=
  newSocket os target p = .ok () ∧ os.bind (bindAddr target p) = .ok () ∧
    os.connect (bindAddr target p) target = .error e ∧
    e.kind ≠ .addrInUse ∧ e.kind ≠ .addrNotAvailable

/-- The result that trying the port settles, if it settles one. -/
def Os.answer : Option (Result TcpStream) :=
  match newSocket os target p with
  | .error e => some (.error (.io e.msg))
  | .ok () =>
    match os.bind (bindAddr target p) with
    | .error _ => none
    | .ok () =>
      match os.connect (bindAddr target p) target with
      | .ok stream => some (.ok stream)
      | .error e =>
        if e.kind = .addrInUse ∨ e.kind = .addrNotAvailable then none
        else some (.error (.io e.msg))

end Answer

section Answers

variable {os : Os} {target : SocketAddr} {p : UInt16}

theorem Os.Passes.answer (h : os.Passes target p) : os.answer target p = none := by
  obtain ⟨hs, ⟨e, hb⟩ | ⟨hb, e, hc, hk⟩⟩ := h
  · simp [Os.answer, hs, hb]
  · simp [Os.answer, hs, hb, hc, hk]

theorem Os.Connects.answer {s : TcpStream} (h : os.Connects target p s) :
    os.answer target p = some (.ok s) := by
  simp [Os.answer, h.1, h.2.1, h.2.2]

theorem Os.Refuses.answer {e : IoError} (h : os.Refuses target p e) :
    os.answer target p = some (.error (.io e.msg)) := by
  obtain ⟨hs, hb, hc, hk⟩ := h
  simp [Os.answer, hs, hb, hc, hk]

/-- A port gets no socket, or it is passed, connects or is refused. -/
theorem port_cases (os : Os) (target : SocketAddr) (p : UInt16) :
    (∃ e, newSocket os target p = .error e ∧ os.answer target p = some (.error (.io e.msg))) ∨
      os.Passes target p ∨ (∃ s, os.Connects target p s) ∨ ∃ e, os.Refuses target p e := by
  cases hs : newSocket os target p with
  | error e => exact .inl ⟨e, rfl, by simp [Os.answer, hs]⟩
  | ok u =>
    cases hb : os.bind (bindAddr target p) with
    | error e => exact .inr (.inl ⟨hs, .inl ⟨e, hb⟩⟩)
    | ok u =>
      cases hc : os.connect (bindAddr target p) target with
      | ok s => exact .inr (.inr (.inl ⟨s, hs, hb, hc⟩))
      | error e =>
        by_cases hk : e.kind = .addrInUse ∨ e.kind = .addrNotAvailable
        · exact .inr (.inl ⟨hs, .inr ⟨hb, e, hc, hk⟩⟩)
        · exact .inr (.inr (.inr ⟨e, hs, hb, hc, not_or.mp hk⟩))

theorem passes_of_answer (h : os.answer target p = none) : os.Passes target p := by
  rcases port_cases os target p with ⟨e, -, ha⟩ | hp | ⟨s, hp⟩ | ⟨e, hp⟩
  · simp [h] at ha
  · exact hp
  · simp [hp.answer] at h
  · simp [hp.answer] at h

theorem connects_of_answer {s : TcpStream} (h : os.answer target p = some (.ok s)) :
    os.Connects target p s := by
  rcases port_cases os target p with ⟨e, -, ha⟩ | hp | ⟨s', hp⟩ | ⟨e, hp⟩
  · simp [h] at ha
  · simp [hp.answer] at h
  · cases hp.answer.symm.trans h
    exact hp
  · simp [hp.answer] at h

theorem error_of_answer {err : Error} (h : os.answer target p = some (.error err)) :
    ∃ e, (newSocket os target p = .error e ∨ os.Refuses target p e) ∧ err = .io e.msg := by
  rcases port_cases os target p with ⟨e, hs, ha⟩ | hp | ⟨s, hp⟩ | ⟨e, hp⟩
  · cases h.symm.trans ha
    exact ⟨e, .inl hs, rfl⟩
  · simp [hp.answer] at h
  · simp [hp.answer] at h
  · cases h.symm.trans hp.answer
    exact ⟨e, .inr hp, rfl⟩

/-- No port settles that there is none. -/
theorem answer_ne_exhausted (os : Os) (target : SocketAddr) (p : UInt16) :
    os.answer target p ≠ some (.error .noLocalPortAvailable) := by
  intro h
  obtain ⟨e, -, he⟩ := error_of_answer h
  cases he

end Answers

section Candidates

variable {start last : UInt16} {count offset i : UInt32}

theorem portCount_eq (h : start ≤ last) :
    portCount start last = .ok ((last - start).toUInt32 + 1) := by
  have hlt := (last - start).toNat_lt
  have hfits : (last - start).toUInt32.toNat + (1 : UInt32).toNat < 2^32 := by
    simp only [UInt16.toNat_toUInt32, UInt32.toNat_one]
    omega
  rw [portCount, Checked.subU16_eq h, Checked.ok_bind, Checked.addU32_eq hfits]

theorem portCount_toNat (h : start ≤ last) (hc : portCount start last = .ok count) :
    count.toNat = last.toNat - start.toNat + 1 := by
  rw [portCount_eq h] at hc
  cases hc
  have hlt := last.toNat_lt
  rw [UInt32.toNat_add, UInt16.toNat_toUInt32, UInt16.toNat_sub_of_le _ _ h, UInt32.toNat_one]
  omega

/-- The candidate at an index, without the checks. -/
def portAt (start : UInt16) (count offset i : UInt32) : UInt16 :=
  start + ((offset + i) % count).toUInt16

/-- The ports in the order in which they are tried. -/
def walk (start : UInt16) (count offset : UInt32) : List UInt16 :=
  (indices count).map (portAt start count offset)

/-- What the loop is entered with. -/
structure Spans (start last : UInt16) (count offset : UInt32) : Prop where
  ordered : start ≤ last
  count_toNat : count.toNat = last.toNat - start.toNat + 1
  below : offset < count

theorem Spans.of_range (rng : Rng) (h : start ≤ last) (hc : portCount start last = .ok count) :
    Spans start last count (rng.genRange count) := by
  have hcount := portCount_toNat h hc
  refine ⟨h, hcount, rng.below count ?_⟩
  rw [UInt32.lt_iff_toNat_lt, UInt32.toNat_zero]
  omega

/-- No sum leaves its type: the indices of the walk stay below twice the count, which is
at most `2^17`. -/
theorem Spans.portAt_toNat (h : Spans start last count offset) (hi : i < count) :
    offset.toNat + i.toNat < 2^32 ∧ start.toNat + ((offset + i) % count).toUInt16.toNat < 2^16 ∧
      (portAt start count offset i).toNat = start.toNat + (offset.toNat + i.toNat) % count.toNat := by
  have hcount := h.count_toNat
  have hlast := last.toNat_lt
  have hle := UInt16.le_iff_toNat_le.mp h.ordered
  have hoff := UInt32.lt_iff_toNat_lt.mp h.below
  have hidx := UInt32.lt_iff_toNat_lt.mp hi
  have hsum : offset.toNat + i.toNat < 2^32 := by omega
  have hmod : (offset.toNat + i.toNat) % count.toNat < count.toNat := Nat.mod_lt _ (by omega)
  have hrem : ((offset + i) % count).toUInt16.toNat = (offset.toNat + i.toNat) % count.toNat := by
    rw [UInt32.toNat_toUInt16, UInt32.toNat_mod, UInt32.toNat_add, Nat.mod_eq_of_lt hsum]
    exact Nat.mod_eq_of_lt (by omega)
  have hport : start.toNat + ((offset + i) % count).toUInt16.toNat < 2^16 := by
    rw [hrem]
    omega
  refine ⟨hsum, hport, ?_⟩
  rw [portAt, UInt16.toNat_add, Nat.mod_eq_of_lt hport, hrem]

theorem Spans.candidate_eq (h : Spans start last count offset) (hi : i < count) :
    candidate start count offset i = .ok (portAt start count offset i) := by
  obtain ⟨hsum, hport, -⟩ := h.portAt_toNat hi
  rw [candidate, Checked.addU32_eq hsum, Checked.ok_bind, Checked.addU16_eq hport, portAt]

theorem mem_indices : i ∈ indices count ↔ i < count := by
  rw [indices, List.mem_map, UInt32.lt_iff_toNat_lt]
  constructor
  · intro h
    obtain ⟨n, hn, hni⟩ := h
    rw [List.mem_range] at hn
    rw [← hni, UInt32.toNat_ofNat_of_lt' (hn.trans count.toNat_lt)]
    exact hn
  · intro hi
    exact ⟨i.toNat, List.mem_range.mpr hi, UInt32.ofNat_toNat⟩

/-- The walk is the range from the offset on, and then the rest of it. -/
theorem Spans.walk_toNat (h : Spans start last count offset) :
    (walk start count offset).map UInt16.toNat =
      (List.range' start.toNat count.toNat).rotate offset.toNat := by
  rw [← Process.map_counter_eq_rotate, walk, indices, List.map_map, List.map_map]
  apply List.map_congr_left
  intro n hn
  have hn' : (UInt32.ofNat n).toNat = n :=
    UInt32.toNat_ofNat_of_lt' ((List.mem_range.mp hn).trans count.toNat_lt)
  have hi : UInt32.ofNat n < count := by
    rw [UInt32.lt_iff_toNat_lt, hn']
    exact List.mem_range.mp hn
  have hport := (h.portAt_toNat hi).2.2
  rw [hn'] at hport
  exact hport

theorem Spans.walk_nodup (h : Spans start last count offset) : (walk start count offset).Nodup := by
  apply List.Nodup.of_map UInt16.toNat
  rw [h.walk_toNat, List.nodup_rotate]
  exact List.nodup_range'

theorem Spans.mem_walk (h : Spans start last count offset) {p : UInt16} :
    p ∈ walk start count offset ↔ start ≤ p ∧ p ≤ last := by
  have hcount := h.count_toNat
  have hle := UInt16.le_iff_toNat_le.mp h.ordered
  have hinj : Function.Injective UInt16.toNat := fun _ _ hab => UInt16.toNat_inj.mp hab
  rw [← List.mem_map_of_injective hinj, h.walk_toNat, List.mem_rotate,
    List.mem_range'_1, UInt16.le_iff_toNat_le, UInt16.le_iff_toNat_le]
  omega

end Candidates

/-- A round takes the result its port settles, or goes on with the port tried. -/
theorem portLoop_cons {os : Os} {target : SocketAddr} {start p : UInt16} {count offset i : UInt32}
    {is : List UInt32} {tried : List UInt16} (hp : candidate start count offset i = .ok p) :
    portLoop os target start count offset (i :: is) tried =
      match os.answer target p with
      | some r => .ok (tried ++ [p], r)
      | none => portLoop os target start count offset is (tried ++ [p]) := by
  simp only [portLoop, hp, Checked.ok_bind, Os.answer]
  cases newSocket os target p with
  | error e => rfl
  | ok u =>
    cases os.bind (bindAddr target p) with
    | error e => rfl
    | ok u =>
      cases os.connect (bindAddr target p) target with
      | ok s => rfl
      | error e =>
        by_cases hk : e.kind = .addrInUse ∨ e.kind = .addrNotAvailable
        · simp only [if_pos hk]
        · simp only [if_neg hk]

/-- The loop tries each port of the walk until one settles the result. -/
theorem portLoop_eq {os : Os} {target : SocketAddr} {start last : UInt16} {count offset : UInt32}
    (h : Spans start last count offset) (is : List UInt32) (his : ∀ i ∈ is, i < count)
    (tried : List UInt16) :
    portLoop os target start count offset is tried =
      .ok (tried ++ (Process.tryEach (os.answer target) (is.map (portAt start count offset))).1,
        (Process.tryEach (os.answer target) (is.map (portAt start count offset))).2.getD
          (.error .noLocalPortAvailable)) := by
  induction is generalizing tried with
  | nil => simp [portLoop, Process.tryEach]
  | cons i is ih =>
    obtain ⟨hi, his⟩ := List.forall_mem_cons.mp his
    rw [portLoop_cons (h.candidate_eq hi), List.map_cons, Process.tryEach]
    cases ha : os.answer target (portAt start count offset i) with
    | some r => simp
    | none => simp [ih his]

/-- How a scan of these ports ends: the ports tried, and the result. -/
inductive Scan (os : Os) (target : SocketAddr) (ports : List UInt16) :
    List UInt16 → Result TcpStream → Prop
  | exhausted (hall : ∀ p ∈ ports, os.Passes target p) :
      Scan os target ports ports (.error .noLocalPortAvailable)
  | settled {before rest : List UInt16} {p : UInt16} {r : Result TcpStream}
      (hw : ports = before ++ p :: rest) (hbefore : ∀ q ∈ before, os.Passes target q)
      (hr : os.answer target p = some r) : Scan os target ports (before ++ [p]) r

theorem scan_tryEach (os : Os) (target : SocketAddr) (ports : List UInt16) :
    Scan os target ports (Process.tryEach (os.answer target) ports).1
      ((Process.tryEach (os.answer target) ports).2.getD (.error .noLocalPortAvailable)) := by
  rcases Process.tryEach_cases (os.answer target) ports with
    ⟨htry, hall⟩ | ⟨before, p, rest, r, hw, hbefore, hr, htry⟩
  · rw [htry]
    exact .exhausted fun p hp => passes_of_answer (hall p hp)
  · rw [htry]
    exact .settled hw (fun q hq => passes_of_answer (hbefore q hq)) hr

/-- The function returns, having scanned the walk over its range. -/
theorem connectWithPortRange_scan (os : Os) (rng : Rng) (target : SocketAddr)
    {start last : UInt16} (h : start ≤ last) :
    ∃ count tried r, portCount start last = .ok count ∧
      Spans start last count (rng.genRange count) ∧
      connectWithPortRange os rng target start last = .ok (tried, r) ∧
      Scan os target (walk start count (rng.genRange count)) tried r := by
  have hc := portCount_eq h
  have hspans := Spans.of_range rng h hc
  refine ⟨_, _, _, hc, hspans, ?_, scan_tryEach os target _⟩
  rw [connectWithPortRange, hc, Checked.ok_bind,
    portLoop_eq hspans _ (fun i hi => mem_indices.mp hi) [], List.nil_append]
  rfl

section Scanned

variable {os : Os} {target : SocketAddr} {ports tried : List UInt16} {r : Result TcpStream}

theorem Scan.front (h : Scan os target ports tried r) : tried <+: ports := by
  cases h with
  | exhausted => exact List.prefix_rfl
  | settled hw => exact hw ▸ ⟨_, List.append_assoc _ _ _⟩

/-- A port that settles the result is the last one tried. -/
theorem Scan.of_answer (h : Scan os target ports tried r) {p : UInt16} (hp : p ∈ tried)
    {r' : Result TcpStream} (hr' : os.answer target p = some r') :
    r = r' ∧ ∃ before, tried = before ++ [p] ∧ ∀ q ∈ before, os.Passes target q := by
  cases h with
  | exhausted hall => simp [(hall p hp).answer] at hr'
  | settled hw hbefore hr =>
    rcases List.mem_append.mp hp with hp | hp
    · simp [(hbefore p hp).answer] at hr'
    · obtain rfl := List.mem_singleton.mp hp
      exact ⟨Option.some.inj (hr.symm.trans hr'), _, rfl, hbefore⟩

theorem Scan.ok_iff (h : Scan os target ports tried r) {s : TcpStream} :
    r = .ok s ↔ ∃ before p, tried = before ++ [p] ∧ (∀ q ∈ before, os.Passes target q) ∧
      os.Connects target p s := by
  constructor
  · intro hs
    subst hs
    cases h with
    | settled hw hbefore hr =>
      exact ⟨_, _, rfl, hbefore, connects_of_answer hr⟩
  · intro hlast
    obtain ⟨before, p, htried, -, hp⟩ := hlast
    have hmem : p ∈ tried := by simp [htried]
    exact (h.of_answer hmem hp.answer).1

/-- The scan gives up exactly when no port it tried settles the result. -/
theorem Scan.exhausted_iff (h : Scan os target ports tried r) :
    r = .error .noLocalPortAvailable ↔ ∀ p ∈ tried, os.Passes target p := by
  cases h with
  | exhausted hall => exact ⟨fun _ => hall, fun _ => rfl⟩
  | @settled before rest p r hw hbefore hr =>
    constructor
    · intro hgive
      exact absurd (hr.trans (congrArg some hgive)) (answer_ne_exhausted os target p)
    · intro hall
      have hpass := hall p (by simp)
      simp [hpass.answer] at hr

theorem Scan.tried_all (h : Scan os target ports tried (.error .noLocalPortAvailable)) :
    tried = ports := by
  cases h with
  | exhausted => rfl
  | settled hw hbefore hr => exact absurd hr (answer_ne_exhausted _ _ _)

/-- Any other error is that of a port tried. -/
theorem Scan.error_cases {err : Error} (h : Scan os target ports tried (.error err)) :
    err = .noLocalPortAvailable ∨ ∃ p ∈ tried, ∃ e,
      (newSocket os target p = .error e ∨ os.Refuses target p e) ∧ err = .io e.msg := by
  cases h with
  | exhausted => exact .inl rfl
  | @settled before rest p r hw hbefore hr => exact .inr ⟨p, by simp, error_of_answer hr⟩

end Scanned

/-- Every socket for this target can be created. -/
def Os.CreatesSockets (os : Os) (target : SocketAddr) : Prop :=
  ∀ p, newSocket os target p = .ok ()

/-- **The scan is exhaustive, does not repeat a port and does not overflow.** -/
theorem connectWithPortRange_exhaustive (os : Os) (rng : Rng) (target : SocketAddr)
    (start last : UInt16) (h : start ≤ last) (hs : os.CreatesSockets target) :
    ∃ count tried r,
      portCount start last = .ok count ∧ count.toNat = last.toNat - start.toNat + 1 ∧
      (∀ i < count, ∃ p, candidate start count (rng.genRange count) i = .ok p ∧
        start ≤ p ∧ p ≤ last) ∧
      connectWithPortRange os rng target start last = .ok (tried, r) ∧
      tried.map UInt16.toNat <+:
        (List.range' start.toNat count.toNat).rotate (rng.genRange count).toNat ∧
      tried.Nodup ∧ (∀ p ∈ tried, start ≤ p ∧ p ≤ last) ∧
      (∀ s, r = .ok s ↔ ∃ before p, tried = before ++ [p] ∧
        (∀ q ∈ before, os.Passes target q) ∧ os.Connects target p s) ∧
      (r = .error .noLocalPortAvailable ↔
        (∀ p, start ≤ p → p ≤ last → tried.count p = 1) ∧ ∀ p ∈ tried, os.Passes target p) ∧
      (∀ p ∈ tried, ∀ e, os.Refuses target p e →
        r = .error (.io e.msg) ∧ ∃ before, tried = before ++ [p]) ∧
      ∀ err, r = .error err → err = .noLocalPortAvailable ∨
        ∃ p ∈ tried, ∃ e, os.Refuses target p e ∧ err = .io e.msg := by
  obtain ⟨count, tried, r, hc, hspans, hrun, hscan⟩ := connectWithPortRange_scan os rng target h
  have hfront := hscan.front
  have hnodup : tried.Nodup := hspans.walk_nodup.sublist hfront.sublist
  refine ⟨count, tried, r, hc, hspans.count_toNat, ?_, hrun, ?_, hnodup, ?_,
    fun s => hscan.ok_iff, ?_, ?_, ?_⟩
  · intro i hi
    refine ⟨_, hspans.candidate_eq hi, hspans.mem_walk.mp ?_⟩
    exact List.mem_map_of_mem (mem_indices.mpr hi)
  · rw [← hspans.walk_toNat]
    exact hfront.map UInt16.toNat
  · intro p hp
    exact hspans.mem_walk.mp (hfront.subset hp)
  · constructor
    · intro hr
      subst hr
      refine ⟨fun p hlo hhi => ?_, hscan.exhausted_iff.mp rfl⟩
      have hp : p ∈ tried := by
        rw [hscan.tried_all]
        exact hspans.mem_walk.mpr ⟨hlo, hhi⟩
      exact List.count_eq_one_of_mem hnodup hp
    · intro hall
      exact hscan.exhausted_iff.mpr hall.2
  · intro p hp e hrefuse
    obtain ⟨hr, before, hbefore, -⟩ := hscan.of_answer hp hrefuse.answer
    exact ⟨hr, before, hbefore⟩
  · intro err hr
    subst hr
    rcases hscan.error_cases with he | ⟨p, hp, e, hsock | hrefuse, he⟩
    · exact .inl he
    · rw [hs p] at hsock
      cases hsock
    · exact .inr ⟨p, hp, e, hrefuse, he⟩

theorem fixed_below (offset n : UInt32) (hn : 0 < n) : (if offset < n then offset else 0) < n := by
  split
  · assumption
  · exact hn

/-- A generator that draws this number where it can. -/
def Rng.fixed (offset : UInt32) : Rng where
  genRange n := if offset < n then offset else 0
  below := fixed_below offset

/-- A system on which one port is free. A connection from port 0 uses the port
`ephemeral`. -/
def Os.onlyFree (free ephemeral : UInt16) : Os where
  newV4 _ := .ok ()
  newV6 _ := .ok ()
  bind addr :=
    if addr.port = free then .ok ()
    else .error ⟨.addrInUse, "Address already in use (os error 98)"⟩
  connect addr _ := .ok ⟨bindAddr addr (if addr.port = 0 then ephemeral else addr.port)⟩

theorem connectWithPortRange_skips_busy :
    connectWithPortRange (.onlyFree 45301 32768) (.fixed 0) (.v4 0x7f000001 5044) 45300 45301 =
        .ok ([45300, 45301], .ok ⟨.v4 0 45301⟩) ∧
      ∃ tried r, connectWithPortRange (.onlyFree 45301 32768) (.fixed 1) (.v4 0x7f000001 5044)
          45300 45301 = .ok (tried, r) ∧ tried.Nodup ∧ r ≠ .error .noLocalPortAvailable := by
  obtain ⟨count, tried, r, -, -, -, hrun, -, hnodup, -, -, hnone, -⟩ :=
    connectWithPortRange_exhaustive (.onlyFree 45301 32768) (.fixed 1) (.v4 0x7f000001 5044)
      45300 45301 (by decide) (fun _ => rfl)
  refine ⟨rfl, tried, r, hrun, hnodup, fun hr => ?_⟩
  obtain ⟨hcount, hall⟩ := hnone.mp hr
  have hmem := List.count_pos_iff.mp (hcount 45301 (by decide) (by decide) ▸ Nat.one_pos)
  rcases (hall 45301 hmem).2 with ⟨e, hb⟩ | ⟨-, e, hc, -⟩
  · cases hb
  · cases hc

end Lumberjack.Client
