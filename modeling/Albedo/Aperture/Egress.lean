import Albedo.Middleware.Outcome
import Mathlib.Data.UInt
import Mathlib.Logic.Function.Basic
import Mathlib.Tactic.Common

/-!
# Where outbound requests may go

A request is looked at twice: when its URL is known, and when its host has been resolved. An address
that is written in the URL is judged by the first look, since nothing is resolved then, and every
address an answer names is judged by the second, since it is the only place a client learns of one.
A declared host may be anywhere.
-/
namespace Albedo.Aperture.Egress
open Middleware (toAsciiLowercase)

/-! ### Addresses -/

structure Ipv4Addr where
  a : UInt8
  b : UInt8
  c : UInt8
  d : UInt8
  deriving DecidableEq

structure Ipv6Addr where
  s0 : UInt16
  s1 : UInt16
  s2 : UInt16
  s3 : UInt16
  s4 : UInt16
  s5 : UInt16
  s6 : UInt16
  s7 : UInt16
  deriving DecidableEq

inductive IpAddr where
  | v4 (addr : Ipv4Addr)
  | v6 (addr : Ipv6Addr)

inductive AddressClass where
  | loopback
  | linkLocal
  | «private»
  | sharedAddress
  | unspecified
  | multicast
  | broadcast
  | benchmarking
  | documentation

def Ipv4Addr.isPrivate (addr : Ipv4Addr) : Bool :=
  addr.a = 10 || addr.a = 172 && 16 ≤ addr.b && addr.b ≤ 31 || addr.a = 192 && addr.b = 168

def Ipv4Addr.isDocumentation (addr : Ipv4Addr) : Bool :=
  addr.a = 192 && addr.b = 0 && addr.c = 2 || addr.a = 198 && addr.b = 51 && addr.c = 100 ||
    addr.a = 203 && addr.b = 0 && addr.c = 113

def classifyV4 (addr : Ipv4Addr) : Option AddressClass :=
  if addr.a = 127 then some .loopback
  else if addr.a = 169 ∧ addr.b = 254 then some .linkLocal
  else if addr.isPrivate then some .private
  else if addr = ⟨0, 0, 0, 0⟩ then some .unspecified
  else if addr = ⟨255, 255, 255, 255⟩ then some .broadcast
  else if 224 ≤ addr.a ∧ addr.a ≤ 239 then some .multicast
  else if addr.a = 100 ∧ addr.b &&& 0b11000000 = 64 then some .sharedAddress
  else if addr.a = 198 ∧ addr.b &&& 0b11111110 = 18 then some .benchmarking
  else if addr.isDocumentation then some .documentation
  else none

def classifyV6 (addr : Ipv6Addr) : Option AddressClass :=
  if addr = ⟨0, 0, 0, 0, 0, 0, 0, 1⟩ then some .loopback
  else if addr = ⟨0, 0, 0, 0, 0, 0, 0, 0⟩ then some .unspecified
  else if addr.s0 &&& 0xff00 = 0xff00 then some .multicast
  else if addr.s0 &&& 0xffc0 = 0xfe80 then some .linkLocal
  else if addr.s0 &&& 0xfe00 = 0xfc00 then some .private
  else if addr.s0 = 0x2001 ∧ addr.s1 = 0x0db8 then some .documentation
  else none

/-- `Ipv6Addr::to_ipv4`: the address an IPv4-mapped or IPv4-compatible one carries. -/
def Ipv6Addr.toIpv4 (addr : Ipv6Addr) : Option Ipv4Addr :=
  if addr.s0 = 0 ∧ addr.s1 = 0 ∧ addr.s2 = 0 ∧ addr.s3 = 0 ∧ addr.s4 = 0 ∧
      (addr.s5 = 0 ∨ addr.s5 = 0xffff) then
    some ⟨(addr.s6 >>> 8).toUInt8, addr.s6.toUInt8, (addr.s7 >>> 8).toUInt8, addr.s7.toUInt8⟩
  else none

def classify : IpAddr → Option AddressClass
  | .v4 addr => classifyV4 addr
  | .v6 addr => (classifyV6 addr).or (addr.toIpv4.bind classifyV4)

/-! ### The ranges that are refused -/

/-- A range of addresses: those that agree with one in their first bits. -/
structure Prefix where
  base : ℕ
  free : ℕ

def Prefix.Has (range : Prefix) (n : ℕ) : Prop := n / 2 ^ range.free = range.base / 2 ^ range.free

instance (range : Prefix) (n : ℕ) : Decidable (range.Has n) := inferInstanceAs (Decidable (_ = _))

def Ipv4Addr.toNat (addr : Ipv4Addr) : ℕ :=
  2 ^ 24 * addr.a.toNat + 2 ^ 16 * addr.b.toNat + 2 ^ 8 * addr.c.toNat + addr.d.toNat

def Ipv6Addr.toNat (addr : Ipv6Addr) : ℕ :=
  2 ^ 112 * addr.s0.toNat + 2 ^ 96 * addr.s1.toNat + 2 ^ 80 * addr.s2.toNat +
    2 ^ 64 * addr.s3.toNat + 2 ^ 48 * addr.s4.toNat + 2 ^ 32 * addr.s5.toNat +
    2 ^ 16 * addr.s6.toNat + addr.s7.toNat

def dotted (a b c d : ℕ) : ℕ := 2 ^ 24 * a + 2 ^ 16 * b + 2 ^ 8 * c + d

/-- `127/8`, `169.254/16`, `10/8`, `172.16/12`, `192.168/16`, `0.0.0.0`, `255.255.255.255`, `224/4`,
`100.64/10`, `198.18/15` and the three ranges of documentation. -/
def refusedV4 : List Prefix :=
  [⟨dotted 127 0 0 0, 24⟩, ⟨dotted 169 254 0 0, 16⟩, ⟨dotted 10 0 0 0, 24⟩,
    ⟨dotted 172 16 0 0, 20⟩, ⟨dotted 192 168 0 0, 16⟩, ⟨dotted 0 0 0 0, 0⟩,
    ⟨dotted 255 255 255 255, 0⟩, ⟨dotted 224 0 0 0, 28⟩, ⟨dotted 100 64 0 0, 22⟩,
    ⟨dotted 198 18 0 0, 17⟩, ⟨dotted 192 0 2 0, 8⟩, ⟨dotted 198 51 100 0, 8⟩,
    ⟨dotted 203 0 113 0, 8⟩]

/-- `::1`, `::`, `ff00::/8`, `fe80::/10`, `fc00::/7` and `2001:db8::/32`. -/
def refusedV6 : List Prefix :=
  [⟨1, 0⟩, ⟨0, 0⟩, ⟨2 ^ 112 * 0xff00, 120⟩, ⟨2 ^ 112 * 0xfe80, 118⟩, ⟨2 ^ 112 * 0xfc00, 121⟩,
    ⟨2 ^ 112 * 0x2001 + 2 ^ 96 * 0x0db8, 96⟩]

/-- The address that the last 32 bits of an IPv6 address are, where it is mapped or compatible. -/
def Carries (addr : Ipv6Addr) (carried : Ipv4Addr) : Prop :=
  addr.toNat = 2 ^ 32 * 0xffff + carried.toNat ∨ addr.toNat = carried.toNat

def Refused : IpAddr → Prop
  | .v4 addr => ∃ range ∈ refusedV4, range.Has addr.toNat
  | .v6 addr => (∃ range ∈ refusedV6, range.Has addr.toNat) ∨
      ∃ carried, Carries addr carried ∧ ∃ range ∈ refusedV4, range.Has carried.toNat

theorem and_mask_u8 (b : UInt8) : (b &&& 0b11000000 = 64 ↔ b.toNat / 64 = 1) ∧
    (b &&& 0b11111110 = 18 ↔ b.toNat / 2 = 9) := by
  have hall : ∀ n < 256, (UInt8.ofNat n &&& 0b11000000 = 64 ↔ n / 64 = 1) ∧
      (UInt8.ofNat n &&& 0b11111110 = 18 ↔ n / 2 = 9) := by decide +kernel
  have hb := hall b.toNat b.toNat_lt
  rwa [UInt8.ofNat_toNat] at hb

theorem and_leading (n free width : ℕ) :
    n &&& (2 ^ width - 1) * 2 ^ free = (n / 2 ^ free &&& 2 ^ width - 1) * 2 ^ free := by
  apply Nat.eq_of_testBit_eq
  intro i
  simp only [Nat.testBit_and, Nat.testBit_mul_two_pow, Nat.testBit_div_two_pow,
    Nat.testBit_two_pow_sub_one]
  by_cases h : free ≤ i
  · simp [h]
  · simp [h]

theorem and_mask_u16 (s : UInt16) (width : ℕ) (hwidth : width ≤ 16) (mask value : UInt16)
    (hmask : mask.toNat = (2 ^ width - 1) * 2 ^ (16 - width))
    (hvalue : value.toNat % 2 ^ (16 - width) = 0) :
    s &&& mask = value ↔ s.toNat / 2 ^ (16 - width) = value.toNat / 2 ^ (16 - width) := by
  have hquot : s.toNat / 2 ^ (16 - width) < 2 ^ width := by
    apply Nat.div_lt_of_lt_mul
    rw [← pow_add, Nat.sub_add_cancel hwidth]
    exact s.toNat_lt
  have hand : (s &&& mask).toNat = s.toNat / 2 ^ (16 - width) * 2 ^ (16 - width) := by
    rw [UInt16.toNat_and, hmask, and_leading, Nat.and_two_pow_sub_one_eq_mod,
      Nat.mod_eq_of_lt hquot]
  have hval : value.toNat = value.toNat / 2 ^ (16 - width) * 2 ^ (16 - width) := by
    rw [Nat.div_mul_cancel (Nat.dvd_of_mod_eq_zero hvalue)]
  rw [← UInt16.toNat_inj, hand]
  constructor
  · intro h
    rw [← h, Nat.mul_div_cancel _ (Nat.two_pow_pos _)]
  · intro h
    rw [h, ← hval]

theorem ite_some_eq_none {α : Type} (p : Prop) [Decidable p] (x : α) (rest : Option α) :
    (if p then some x else rest) = none ↔ ¬ p ∧ rest = none := by
  by_cases hp : p <;> simp [hp]

theorem classifyV4_eq_none_iff (addr : Ipv4Addr) :
    classifyV4 addr = none ↔ ∀ range ∈ refusedV4, ¬ range.Has addr.toNat := by
  obtain ⟨a, b, c, d⟩ := addr
  have ha := a.toNat_lt
  have hb := b.toNat_lt
  have hc := c.toNat_lt
  have hd := d.toNat_lt
  simp only [refusedV4, List.forall_mem_cons, List.not_mem_nil, false_imp_iff, implies_true,
    and_true, Prefix.Has, dotted, Ipv4Addr.toNat, classifyV4, ite_some_eq_none, Ipv4Addr.isPrivate,
    Ipv4Addr.isDocumentation, Ipv4Addr.mk.injEq, (and_mask_u8 b).1, (and_mask_u8 b).2,
    ← UInt8.toNat_inj (a := a), ← UInt8.toNat_inj (a := b), ← UInt8.toNat_inj (a := c),
    ← UInt8.toNat_inj (a := d), UInt8.le_iff_toNat_le, Bool.or_eq_true, Bool.and_eq_true,
    decide_eq_true_eq, not_or, and_assoc, UInt8.toNat_ofNat]
  -- the ranges stand in the order of the tests
  iterate 12 refine and_congr (by omega) ?_
  omega

theorem classifyV6_eq_none_iff (addr : Ipv6Addr) :
    classifyV6 addr = none ↔ ∀ range ∈ refusedV6, ¬ range.Has addr.toNat := by
  obtain ⟨s0, s1, s2, s3, s4, s5, s6, s7⟩ := addr
  have h0 := s0.toNat_lt
  have h1 := s1.toNat_lt
  have h2 := s2.toNat_lt
  have h3 := s3.toNat_lt
  have h4 := s4.toNat_lt
  have h5 := s5.toNat_lt
  have h6 := s6.toNat_lt
  have h7 := s7.toNat_lt
  have hmulticast := and_mask_u16 s0 8 (by decide) 0xff00 0xff00 rfl rfl
  have hlink := and_mask_u16 s0 10 (by decide) 0xffc0 0xfe80 rfl rfl
  have hlocal := and_mask_u16 s0 7 (by decide) 0xfe00 0xfc00 rfl rfl
  simp only [refusedV6, List.forall_mem_cons, List.not_mem_nil, false_imp_iff, implies_true,
    and_true, Prefix.Has, Ipv6Addr.toNat, classifyV6, ite_some_eq_none, Ipv6Addr.mk.injEq,
    hmulticast, hlink, hlocal, ← UInt16.toNat_inj (a := s0), ← UInt16.toNat_inj (a := s1),
    ← UInt16.toNat_inj (a := s2), ← UInt16.toNat_inj (a := s3), ← UInt16.toNat_inj (a := s4),
    ← UInt16.toNat_inj (a := s5), ← UInt16.toNat_inj (a := s6), ← UInt16.toNat_inj (a := s7),
    UInt16.toNat_ofNat]
  iterate 5 refine and_congr (by omega) ?_
  omega

theorem toIpv4_eq_some_iff (addr : Ipv6Addr) (carried : Ipv4Addr) :
    addr.toIpv4 = some carried ↔ Carries addr carried := by
  obtain ⟨s0, s1, s2, s3, s4, s5, s6, s7⟩ := addr
  obtain ⟨a, b, c, d⟩ := carried
  have h0 := s0.toNat_lt
  have h1 := s1.toNat_lt
  have h2 := s2.toNat_lt
  have h3 := s3.toNat_lt
  have h4 := s4.toNat_lt
  have h5 := s5.toNat_lt
  have h6 := s6.toNat_lt
  have h7 := s7.toNat_lt
  have ha := a.toNat_lt
  have hb := b.toNat_lt
  have hc := c.toNat_lt
  have hd := d.toNat_lt
  have hshift (s : UInt16) : (s >>> 8).toUInt8.toNat = s.toNat / 256 % 256 := by
    rw [UInt16.toNat_toUInt8, UInt16.toNat_shiftRight]
    show s.toNat >>> 8 % 2 ^ 8 = _
    rw [Nat.shiftRight_eq_div_pow]
  simp only [Ipv6Addr.toIpv4, Carries, Ipv6Addr.toNat, Ipv4Addr.toNat,
    Option.ite_none_right_eq_some, Option.some.injEq, Ipv4Addr.mk.injEq, ← UInt8.toNat_inj, hshift,
    UInt16.toNat_toUInt8,
    ← UInt16.toNat_inj (a := s0), ← UInt16.toNat_inj (a := s1),
    ← UInt16.toNat_inj (a := s2), ← UInt16.toNat_inj (a := s3), ← UInt16.toNat_inj (a := s4),
    ← UInt16.toNat_inj (a := s5), UInt16.toNat_ofNat]
  omega

theorem classify_v6_eq_none_iff (addr : Ipv6Addr) : classify (.v6 addr) = none ↔
    classifyV6 addr = none ∧ ∀ carried, Carries addr carried → classifyV4 carried = none := by
  simp only [classify, Option.or_eq_none_iff, Option.bind_eq_none_iff, toIpv4_eq_some_iff]

theorem classify_eq_none_iff (addr : IpAddr) : classify addr = none ↔ ¬ Refused addr := by
  cases addr with
  | v4 addr =>
    simp only [classify, classifyV4_eq_none_iff, Refused, not_exists, not_and]
  | v6 addr =>
    simp only [classify_v6_eq_none_iff, classifyV6_eq_none_iff, classifyV4_eq_none_iff, Refused,
      not_or, not_exists, not_and]

/-! ### The policy -/

inductive EgressMode where
  | dev
  | serve
  deriving DecidableEq

inductive EgressDenial where
  | scheme (scheme : String)
  | noHost
  | address (host : String) (addr : IpAddr) (reason : AddressClass)

structure EgressPolicy where
  mode : EgressMode
  allowHosts : List String

def EgressPolicy.withDeclaredHosts (mode : EgressMode) (hosts : List String) : EgressPolicy :=
  ⟨mode, hosts.map toAsciiLowercase⟩

def EgressPolicy.isDeclared (policy : EgressPolicy) (host : String) : Bool :=
  policy.allowHosts.contains (toAsciiLowercase host)

structure Host where
  text : String
  literal : Option IpAddr

structure Url where
  scheme : String
  host : Option Host

structure SocketAddr where
  ip : IpAddr
  port : UInt16

def EgressPolicy.checkAddress (policy : EgressPolicy) (host : String) (addr : IpAddr) :
    Except EgressDenial Unit :=
  if policy.mode = .dev ∨ policy.isDeclared host then .ok ()
  else
    match classify addr with
    | some reason => .error (.address host addr reason)
    | none => .ok ()

def EgressPolicy.checkUrl (policy : EgressPolicy) (url : Url) : Except EgressDenial Unit :=
  if url.scheme ≠ "http" ∧ url.scheme ≠ "https" then .error (.scheme url.scheme)
  else
    match url.host with
    | none => .error .noHost
    | some host =>
        match host.literal with
        | some addr => policy.checkAddress host.text addr
        | none => .ok ()

def EgressPolicy.filterAddresses (policy : EgressPolicy) (host : String) :
    List SocketAddr → List SocketAddr × Option EgressDenial
  | [] => ([], none)
  | addr :: addrs =>
      let (kept, denial) := policy.filterAddresses host addrs
      match policy.checkAddress host addr.ip with
      | .ok () => (addr :: kept, denial)
      | .error err => (kept, some err)

def EgressPolicy.Permits (policy : EgressPolicy) (host : String) (addr : IpAddr) : Prop :=
  policy.checkAddress host addr = .ok ()

theorem EgressPolicy.permits_of_mem_filterAddresses (policy : EgressPolicy) (host : String)
    (addrs : List SocketAddr) (addr : SocketAddr)
    (hkept : addr ∈ (policy.filterAddresses host addrs).1) : policy.Permits host addr.ip := by
  induction addrs with
  | nil => simp [filterAddresses] at hkept
  | cons first addrs ih =>
    rw [filterAddresses] at hkept
    cases hcheck : policy.checkAddress host first.ip with
    | error err =>
      rw [hcheck] at hkept
      exact ih hkept
    | ok done =>
      rw [hcheck] at hkept
      rcases List.mem_cons.mp hkept with hfirst | hrest
      · rw [hfirst]
        exact hcheck
      · exact ih hrest

theorem EgressPolicy.Permits.declared_or {hosts : List String} {host : String} {addr : IpAddr}
    (h : (EgressPolicy.withDeclaredHosts .serve hosts).Permits host addr) :
    (∃ declared ∈ hosts, toAsciiLowercase declared = toAsciiLowercase host) ∨ ¬ Refused addr := by
  rw [Permits, checkAddress] at h
  split_ifs at h with hopen
  · left
    have hdeclared := hopen.resolve_left (by simp [withDeclaredHosts])
    simpa [isDeclared, withDeclaredHosts] using hdeclared
  · right
    rw [← classify_eq_none_iff]
    cases hclass : classify addr with
    | none => rfl
    | some reason => simp [hclass] at h

/-! ### The client -/

/-- The answer of a lookup, as `ApertureResolver` hands it on. -/
inductive Resolved where
  | failed
  | denied (denial : EgressDenial)
  | addrs (permitted : List SocketAddr)

def EgressPolicy.resolve (policy : EgressPolicy) (host : String) :
    Option (List SocketAddr) → Resolved
  | none => .failed
  | some resolved =>
      match policy.filterAddresses host resolved with
      | ([], some denial) => .denied denial
      | (permitted, _) => .addrs permitted

def Resolved.ips : Resolved → List IpAddr
  | .failed | .denied _ => []
  | .addrs permitted => permitted.map SocketAddr.ip

theorem EgressPolicy.permits_of_mem_resolve (policy : EgressPolicy) (host : String)
    (lookup : Option (List SocketAddr)) (addr : IpAddr)
    (haddr : addr ∈ (policy.resolve host lookup).ips) : policy.Permits host addr := by
  cases lookup with
  | none => simp [resolve, Resolved.ips] at haddr
  | some resolved =>
    rw [resolve] at haddr
    split at haddr
    · simp [Resolved.ips] at haddr
    · next permitted denial _ hfilter =>
      obtain ⟨socket, hsocket, rfl⟩ := List.mem_map.mp haddr
      refine policy.permits_of_mem_filterAddresses host resolved socket ?_
      rw [hfilter]
      exact hsocket

inductive Answer where
  | response (status : ℕ)
  | redirect (status : ℕ) (location : Url)

/-- What a client meets at one URL: what a lookup of the name says then, and what is answered. -/
structure Hop where
  lookup : Option (List SocketAddr)
  answer : Answer

structure Connection where
  host : String
  addr : IpAddr

inductive Redirects where
  | none
  | limited (max : ℕ)

def Redirects.follows : Redirects → ℕ → Bool
  | .none, _ => false
  | .limited max, followed => followed < max

structure ReqwestTransport where
  resolver : EgressPolicy
  redirect : Redirects

def ReqwestTransport.new (policy : EgressPolicy) : ReqwestTransport := ⟨policy, .none⟩

/-- The addresses a client may connect to for a host: the one that is written there, or those its
resolver returned. -/
def ReqwestTransport.targets (transport : ReqwestTransport) (host : Host)
    (lookup : Option (List SocketAddr)) : List IpAddr :=
  match host.literal with
  | some addr => [addr]
  | none => (transport.resolver.resolve host.text lookup).ips

/-- The connections of a request, those of the redirects it follows after its own. -/
def ReqwestTransport.connections (transport : ReqwestTransport) :
    ℕ → Url → List Hop → List Connection
  | _, _, [] => []
  | followed, url, hop :: hops =>
      match url.host with
      | none => []
      | some host =>
          match transport.targets host hop.lookup with
          | [] => []
          | addr :: addrs =>
              (addr :: addrs).map (⟨host.text, ·⟩) ++
                match hop.answer with
                | .response _ => []
                | .redirect _ location =>
                    if transport.redirect.follows followed then
                      transport.connections (followed + 1) location hops
                    else []

inductive ApertureError where
  | invalidUrl (url : String)
  | egress (denial : EgressDenial)

structure ApertureClient where
  policy : EgressPolicy
  transport : ReqwestTransport

/-- A call of `fetch` or `send_effect`. It reaches the wire unless the cache, the flight of another
caller or a spent budget answers it first. -/
structure Call where
  url : String
  reaches : Bool
  hops : List Hop

section Client
variable (parse : String → Option Url)

/-- `ReqwestTransport::send`, which parses the text again. -/
def ReqwestTransport.send (transport : ReqwestTransport) (url : String) (hops : List Hop) :
    List Connection :=
  match parse url with
  | none => []
  | some url => transport.connections 0 url hops

def ApertureClient.call (client : ApertureClient) (call : Call) :
    Except ApertureError (List Connection) :=
  match parse call.url with
  | none => .error (.invalidUrl call.url)
  | some url =>
      match client.policy.checkUrl url with
      | .error denial => .error (.egress denial)
      | .ok () =>
          .ok (if call.reaches then client.transport.send parse call.url call.hops else [])

def ApertureClient.ofDeclarations (mode : EgressMode) (hosts : List String) : ApertureClient :=
  let policy := EgressPolicy.withDeclaredHosts mode hosts
  ⟨policy, ReqwestTransport.new policy⟩

def ApertureClient.opened (client : ApertureClient) (calls : List Call) : List Connection :=
  calls.flatMap fun call =>
    match client.call parse call with
    | .ok connections => connections
    | .error _ => []

theorem mem_connections_new (policy : EgressPolicy) (url : Url) (hops : List Hop)
    (connection : Connection)
    (hopened : connection ∈ (ReqwestTransport.new policy).connections 0 url hops) :
    ∃ host, url.host = some host ∧ connection.host = host.text ∧ ∃ lookup,
      connection.addr ∈ (ReqwestTransport.new policy).targets host lookup := by
  cases hops with
  | nil => simp [ReqwestTransport.connections] at hopened
  | cons hop hops =>
    rw [ReqwestTransport.connections] at hopened
    cases hhost : url.host with
    | none => simp [hhost] at hopened
    | some host =>
      refine ⟨host, rfl, ?_⟩
      simp only [hhost] at hopened
      split at hopened
      · simp at hopened
      · next addr addrs htargets =>
        rcases List.mem_append.mp hopened with hown | hnext
        · obtain ⟨target, htarget, rfl⟩ := List.mem_map.mp hown
          exact ⟨rfl, hop.lookup, htargets ▸ htarget⟩
        · split at hnext <;> simp [ReqwestTransport.new, Redirects.follows] at hnext

theorem permits_of_mem_call (mode : EgressMode) (hosts : List String) (call : Call)
    (connections : List Connection)
    (hcall : (ApertureClient.ofDeclarations mode hosts).call parse call = .ok connections)
    (connection : Connection) (hopened : connection ∈ connections) :
    (EgressPolicy.withDeclaredHosts mode hosts).Permits connection.host connection.addr := by
  rw [ApertureClient.call] at hcall
  cases hparse : parse call.url with
  | none => simp [hparse] at hcall
  | some url =>
    simp only [hparse] at hcall
    cases hcheck : (ApertureClient.ofDeclarations mode hosts).policy.checkUrl url with
    | error denial => simp [hcheck] at hcall
    | ok done =>
      simp only [hcheck, Except.ok.injEq] at hcall
      subst hcall
      split_ifs at hopened with hreaches
      · rw [ReqwestTransport.send, hparse] at hopened
        obtain ⟨host, hhost, htext, lookup, htarget⟩ :=
          mem_connections_new _ url call.hops connection hopened
        rw [EgressPolicy.checkUrl] at hcheck
        split_ifs at hcheck
        simp only [hhost] at hcheck
        rw [ReqwestTransport.targets] at htarget
        rw [htext]
        cases hliteral : host.literal with
        | some addr =>
          -- nothing is resolved: the first look is the only one
          simp only [hliteral, List.mem_singleton] at hcheck htarget
          rw [htarget]
          exact hcheck
        | none =>
          simp only [hliteral] at htarget
          exact EgressPolicy.permits_of_mem_resolve _ host.text lookup connection.addr htarget
      · simp at hopened

end Client

/-- Every connection goes to a declared host or to an address outside the refused ranges. -/
def Confined (hosts : List String) (opened : List Connection) : Prop :=
  ∀ connection ∈ opened,
    (∃ host ∈ hosts, toAsciiLowercase host = toAsciiLowercase connection.host) ∨
      ¬ Refused connection.addr

/-- An address that carries a refused one is refused, and one that is refused in its own form is
refused for that. -/
def UnwrappingKeepsRefusals : Prop :=
  (∀ addr carried, Carries addr carried → classify (.v4 carried) ≠ none →
    classify (.v6 addr) ≠ none) ∧
  ∀ addr reason, classifyV6 addr = some reason → classify (.v6 addr) = some reason

/-- A serving client reaches only what is allowed, whatever its URLs parse to, whatever each lookup
says and whatever is answered. -/
theorem egress_confined (parse : String → Option Url) (hosts : List String) (calls : List Call) :
    Confined hosts ((ApertureClient.ofDeclarations .serve hosts).opened parse calls) ∧
      UnwrappingKeepsRefusals := by
  refine ⟨?_, ?_, ?_⟩
  · intro connection hopened
    obtain ⟨call, -, hconnection⟩ := List.mem_flatMap.mp hopened
    split at hconnection
    · next connections hcall =>
      exact (permits_of_mem_call parse .serve hosts call connections hcall connection
        hconnection).declared_or
    · simp at hconnection
  · intro addr carried hcarries hrefused hnone
    exact hrefused ((classify_v6_eq_none_iff addr).mp hnone |>.2 carried hcarries)
  · intro addr reason hreason
    rw [classify, hreason, Option.some_or]

end Albedo.Aperture.Egress
