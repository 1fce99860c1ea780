import WeaveGraph.Lib.Hex
import WeaveGraph.Lib.Http
import WeaveGraph.Hub.Addresses

/-!
# Webhooks

After a commit the registry posts a notification to the URL registered for the repository.  The
host is resolved anew for every notification, all addresses of the answer are tested against the
address classes a webhook must never reach, and the first one is connected to.  The resolver is a
parameter and may answer differently each time.

The test knows the documentation blocks of IPv4 only, so an answer from those of IPv6 is connected
to (`isBlockedAddr_iff`).  Host and path go into the request as they stand in the URL, so a URL with
a line end in its path brings headers of its own (`webhook_request_iff`).
-/

namespace WeaveGraph.Hub

open List Lib Lib.Text Lib.Wire Lib.Http

/-! ## Addresses -/

structure Ipv4Addr where
  a : UInt8
  b : UInt8
  c : UInt8
  d : UInt8
deriving Repr, DecidableEq

/-- Eight segments of sixteen bits. -/
structure Ipv6Addr where
  s0 : UInt16
  s1 : UInt16
  s2 : UInt16
  s3 : UInt16
  s4 : UInt16
  s5 : UInt16
  s6 : UInt16
  s7 : UInt16
deriving Repr, DecidableEq

inductive IpAddr where
  | v4 (ip : Ipv4Addr)
  | v6 (ip : Ipv6Addr)
deriving Repr, DecidableEq

structure SocketAddr where
  ip : IpAddr
  port : Nat
deriving Repr, DecidableEq

namespace Ipv4Addr

def isLoopback (x : Ipv4Addr) : Bool := x.a == 127

def isPrivate (x : Ipv4Addr) : Bool :=
  x.a == 10 || (x.a == 172 && (16 ≤ x.b && x.b ≤ 31)) || (x.a == 192 && x.b == 168)

def isLinkLocal (x : Ipv4Addr) : Bool := x.a == 169 && x.b == 254

def isUnspecified (x : Ipv4Addr) : Bool := x == ⟨0, 0, 0, 0⟩

def isBroadcast (x : Ipv4Addr) : Bool := x == ⟨255, 255, 255, 255⟩

def isDocumentation (x : Ipv4Addr) : Bool :=
  (x.a == 192 && x.b == 0 && x.c == 2) || (x.a == 198 && x.b == 51 && x.c == 100) ||
    (x.a == 203 && x.b == 0 && x.c == 113)

end Ipv4Addr

namespace Ipv6Addr

def isLoopback (x : Ipv6Addr) : Bool := x == ⟨0, 0, 0, 0, 0, 0, 0, 1⟩

def isUnspecified (x : Ipv6Addr) : Bool := x == ⟨0, 0, 0, 0, 0, 0, 0, 0⟩

/-- `fc00::/7`. -/
def isUniqueLocal (x : Ipv6Addr) : Bool := x.s0 >>> 9 == 0x7e

/-- `fe80::/10`. -/
def isUnicastLinkLocal (x : Ipv6Addr) : Bool := x.s0 >>> 6 == 0x3fa

/-- The address behind `::ffff:a.b.c.d`. -/
def toIpv4Mapped (x : Ipv6Addr) : Option Ipv4Addr :=
  if x.s0 = 0 ∧ x.s1 = 0 ∧ x.s2 = 0 ∧ x.s3 = 0 ∧ x.s4 = 0 ∧ x.s5 = 0xffff then
    some ⟨(x.s6 >>> 8).toUInt8, x.s6.toUInt8, (x.s7 >>> 8).toUInt8, x.s7.toUInt8⟩
  else none

end Ipv6Addr

def isBlockedV4 (v4 : Ipv4Addr) : Bool :=
  v4.isLoopback || v4.isPrivate || v4.isLinkLocal || v4.isUnspecified || v4.isBroadcast ||
    v4.isDocumentation

def isBlockedAddr : IpAddr → Bool
  | .v4 v4 => isBlockedV4 v4
  | .v6 v6 =>
    v6.isLoopback || v6.isUnspecified || v6.isUniqueLocal || v6.isUnicastLinkLocal ||
      v6.toIpv4Mapped.any isBlockedV4

/-! ## The classes as blocks -/

/-- The addresses whose first `length` bits are those of `base`. -/
structure Block where
  base : Nat
  length : Nat
deriving Repr, DecidableEq

/-- Addresses of `width` bits. -/
def Block.Covers (width : Nat) (b : Block) (n : Nat) : Prop :=
  n / 2 ^ (width - b.length) = b.base / 2 ^ (width - b.length)
deriving Decidable

namespace Ipv4Addr

def toNat (x : Ipv4Addr) : Nat :=
  x.a.toNat * 2 ^ 24 + x.b.toNat * 2 ^ 16 + x.c.toNat * 2 ^ 8 + x.d.toNat

def block (a b c d : UInt8) (length : Nat) : Block := ⟨toNat ⟨a, b, c, d⟩, length⟩

/-- Loopback, private use, link-local, unspecified, broadcast, documentation. -/
def listedBlocks : List Block :=
  [block 127 0 0 0 8, block 10 0 0 0 8, block 172 16 0 0 12, block 192 168 0 0 16,
    block 169 254 0 0 16, block 0 0 0 0 32, block 255 255 255 255 32, block 192 0 2 0 24,
    block 198 51 100 0 24, block 203 0 113 0 24]

def Listed (x : Ipv4Addr) : Prop := ∃ b ∈ listedBlocks, b.Covers 32 x.toNat

end Ipv4Addr

namespace Ipv6Addr

def toNat (x : Ipv6Addr) : Nat :=
  x.s0.toNat * 2 ^ 112 + x.s1.toNat * 2 ^ 96 + x.s2.toNat * 2 ^ 80 + x.s3.toNat * 2 ^ 64 +
    x.s4.toNat * 2 ^ 48 + x.s5.toNat * 2 ^ 32 + x.s6.toNat * 2 ^ 16 + x.s7.toNat

/-- Loopback, unspecified, unique local, link-local. -/
def localBlocks : List Block :=
  [⟨1, 128⟩, ⟨0, 128⟩, ⟨0xfc00 * 2 ^ 112, 7⟩, ⟨0xfe80 * 2 ^ 112, 10⟩]

/-- `2001:db8::/32` and `3fff::/20`. -/
def documentationBlocks : List Block :=
  [⟨0x20010db8 * 2 ^ 96, 32⟩, ⟨0x3fff * 2 ^ 112, 20⟩]

def Documentation (x : Ipv6Addr) : Prop := ∃ b ∈ documentationBlocks, b.Covers 128 x.toNat

def Listed (x : Ipv6Addr) : Prop :=
  (∃ b ∈ localBlocks, b.Covers 128 x.toNat) ∨ x.Documentation ∨
    ∃ v4, x.toIpv4Mapped = some v4 ∧ v4.Listed

end Ipv6Addr

namespace IpAddr

/-- One of the classes that a webhook must not reach. -/
def Listed : IpAddr → Prop
  | v4 x => x.Listed
  | v6 x => x.Listed

def Documentation6 : IpAddr → Prop
  | v4 _ => False
  | v6 x => x.Documentation

end IpAddr

/-! ## What the test knows -/

namespace Ipv4Addr

variable (x : Ipv4Addr) (p q r t : UInt8)

theorem covers_8 : (block p 0 0 0 8).Covers 32 x.toNat ↔ x.a = p := by
  have hb := x.b.toNat_lt
  have hc := x.c.toNat_lt
  have hd := x.d.toNat_lt
  rw [← UInt8.toNat_inj]
  simp only [Block.Covers, block, toNat, UInt8.toNat_zero]
  omega

theorem covers_12 : (block p 16 0 0 12).Covers 32 x.toNat ↔ x.a = p ∧ 16 ≤ x.b ∧ x.b ≤ 31 := by
  have hb := x.b.toNat_lt
  have hc := x.c.toNat_lt
  have hd := x.d.toNat_lt
  have h16 : (16 : UInt8).toNat = 16 := rfl
  have h31 : (31 : UInt8).toNat = 31 := rfl
  rw [← UInt8.toNat_inj, UInt8.le_iff_toNat_le, UInt8.le_iff_toNat_le]
  simp only [Block.Covers, block, toNat, UInt8.toNat_zero, h16, h31]
  omega

theorem covers_16 : (block p q 0 0 16).Covers 32 x.toNat ↔ x.a = p ∧ x.b = q := by
  have hb := x.b.toNat_lt
  have hc := x.c.toNat_lt
  have hd := x.d.toNat_lt
  have hq := q.toNat_lt
  rw [← UInt8.toNat_inj, ← UInt8.toNat_inj]
  simp only [Block.Covers, block, toNat, UInt8.toNat_zero]
  omega

theorem covers_24 : (block p q r 0 24).Covers 32 x.toNat ↔ x.a = p ∧ x.b = q ∧ x.c = r := by
  have hb := x.b.toNat_lt
  have hc := x.c.toNat_lt
  have hd := x.d.toNat_lt
  have hq := q.toNat_lt
  have hr := r.toNat_lt
  rw [← UInt8.toNat_inj, ← UInt8.toNat_inj, ← UInt8.toNat_inj]
  simp only [Block.Covers, block, toNat, UInt8.toNat_zero]
  omega

theorem covers_32 : (block p q r t 32).Covers 32 x.toNat ↔ x = ⟨p, q, r, t⟩ := by
  obtain ⟨a, b, c, d⟩ := x
  have hb := b.toNat_lt
  have hc := c.toNat_lt
  have hd := d.toNat_lt
  have hq := q.toNat_lt
  have hr := r.toNat_lt
  have ht := t.toNat_lt
  rw [mk.injEq, ← UInt8.toNat_inj, ← UInt8.toNat_inj, ← UInt8.toNat_inj, ← UInt8.toNat_inj]
  simp only [Block.Covers, block, toNat]
  omega

end Ipv4Addr

theorem isBlockedV4_iff (x : Ipv4Addr) : isBlockedV4 x = true ↔ x.Listed := by
  simp only [Ipv4Addr.Listed, Ipv4Addr.listedBlocks, mem_cons, not_mem_nil, or_false,
    exists_eq_or_imp, exists_eq_left, Ipv4Addr.covers_8, Ipv4Addr.covers_12, Ipv4Addr.covers_16,
    Ipv4Addr.covers_24, Ipv4Addr.covers_32]
  simp only [isBlockedV4, Ipv4Addr.isLoopback, Ipv4Addr.isPrivate, Ipv4Addr.isLinkLocal,
    Ipv4Addr.isUnspecified, Ipv4Addr.isBroadcast, Ipv4Addr.isDocumentation, Bool.or_eq_true,
    Bool.and_eq_true, beq_iff_eq, decide_eq_true_eq, or_assoc, and_assoc]

namespace Ipv6Addr

theorem toNat_div (x : Ipv6Addr) : x.toNat / 2 ^ 112 = x.s0.toNat := by
  have h1 := x.s1.toNat_lt
  have h2 := x.s2.toNat_lt
  have h3 := x.s3.toNat_lt
  have h4 := x.s4.toNat_lt
  have h5 := x.s5.toNat_lt
  have h6 := x.s6.toNat_lt
  have h7 := x.s7.toNat_lt
  unfold toNat
  omega

theorem covers_7 (x : Ipv6Addr) :
    (⟨0xfc00 * 2 ^ 112, 7⟩ : Block).Covers 128 x.toNat ↔ x.isUniqueLocal = true := by
  have hfirst := x.toNat_div
  have hshift : (x.s0 >>> 9).toNat = x.s0.toNat / 2 ^ 9 := by
    rw [UInt16.toNat_shiftRight, Nat.shiftRight_eq_div_pow]
    rfl
  have hvalue : (0x7e : UInt16).toNat = 126 := rfl
  simp only [Block.Covers, isUniqueLocal, beq_iff_eq, ← UInt16.toNat_inj, hshift, hvalue]
  omega

theorem covers_10 (x : Ipv6Addr) :
    (⟨0xfe80 * 2 ^ 112, 10⟩ : Block).Covers 128 x.toNat ↔ x.isUnicastLinkLocal = true := by
  have hfirst := x.toNat_div
  have hshift : (x.s0 >>> 6).toNat = x.s0.toNat / 2 ^ 6 := by
    rw [UInt16.toNat_shiftRight, Nat.shiftRight_eq_div_pow]
    rfl
  have hvalue : (0x3fa : UInt16).toNat = 1018 := rfl
  simp only [Block.Covers, isUnicastLinkLocal, beq_iff_eq, ← UInt16.toNat_inj, hshift, hvalue]
  omega

variable {x : Ipv6Addr}

theorem toNat_inj {y : Ipv6Addr} (h : x.toNat = y.toNat) : x = y := by
  obtain ⟨a0, a1, a2, a3, a4, a5, a6, a7⟩ := x
  obtain ⟨b0, b1, b2, b3, b4, b5, b6, b7⟩ := y
  have ha1 := a1.toNat_lt
  have ha2 := a2.toNat_lt
  have ha3 := a3.toNat_lt
  have ha4 := a4.toNat_lt
  have ha5 := a5.toNat_lt
  have ha6 := a6.toNat_lt
  have ha7 := a7.toNat_lt
  have hb1 := b1.toNat_lt
  have hb2 := b2.toNat_lt
  have hb3 := b3.toNat_lt
  have hb4 := b4.toNat_lt
  have hb5 := b5.toNat_lt
  have hb6 := b6.toNat_lt
  have hb7 := b7.toNat_lt
  simp only [toNat] at h
  simp only [mk.injEq, ← UInt16.toNat_inj]
  omega

theorem covers_128 (x y : Ipv6Addr) : (⟨y.toNat, 128⟩ : Block).Covers 128 x.toNat ↔ x = y := by
  simp only [Block.Covers, Nat.sub_self, Nat.pow_zero, Nat.div_one]
  exact ⟨toNat_inj, congrArg toNat⟩

theorem exists_localBlocks_iff (x : Ipv6Addr) :
    (∃ b ∈ localBlocks, b.Covers 128 x.toNat) ↔
      (x.isLoopback || x.isUnspecified || x.isUniqueLocal || x.isUnicastLinkLocal) = true := by
  have hone : (⟨1, 128⟩ : Block) = ⟨toNat ⟨0, 0, 0, 0, 0, 0, 0, 1⟩, 128⟩ := rfl
  have hzero : (⟨0, 128⟩ : Block) = ⟨toNat ⟨0, 0, 0, 0, 0, 0, 0, 0⟩, 128⟩ := rfl
  simp only [localBlocks, mem_cons, not_mem_nil, or_false, exists_eq_or_imp,
    exists_eq_left, covers_7, covers_10]
  rw [hone, hzero, covers_128, covers_128]
  simp only [isLoopback, isUnspecified, Bool.or_eq_true, beq_iff_eq, or_assoc]

theorem Documentation.first (h : x.Documentation) : x.s0.toNat = 0x2001 ∨ x.s0.toNat = 0x3fff := by
  have hfirst := x.toNat_div
  simp only [Documentation, documentationBlocks, mem_cons, not_mem_nil, or_false,
    exists_eq_or_imp, exists_eq_left, Block.Covers] at h
  omega

theorem Documentation.not_local (h : x.Documentation) :
    ¬ (∃ b ∈ localBlocks, b.Covers 128 x.toNat) ∧ x.toIpv4Mapped = none := by
  have hfirst := x.toNat_div
  have hs0 := h.first
  constructor
  · simp only [localBlocks, mem_cons, not_mem_nil, or_false, exists_eq_or_imp,
      exists_eq_left, Block.Covers]
    omega
  · refine if_neg fun hmapped => ?_
    rw [hmapped.1] at hs0
    revert hs0
    decide

end Ipv6Addr

/-- The test blocks the listed classes but for the documentation blocks of IPv6. -/
theorem isBlockedAddr_iff (ip : IpAddr) :
    isBlockedAddr ip = true ↔ ip.Listed ∧ ¬ ip.Documentation6 := by
  cases ip with
  | v4 x =>
    show isBlockedV4 x = true ↔ x.Listed ∧ ¬ False
    rw [isBlockedV4_iff, and_iff_left not_false]
  | v6 x =>
    have hmapped : x.toIpv4Mapped.any isBlockedV4 = true ↔
        ∃ v4, x.toIpv4Mapped = some v4 ∧ v4.Listed := by
      cases x.toIpv4Mapped with
      | none => simp
      | some v4 => simp [isBlockedV4_iff]
    have hblocked : isBlockedAddr (.v6 x) = true ↔
        (∃ b ∈ Ipv6Addr.localBlocks, b.Covers 128 x.toNat) ∨
          ∃ v4, x.toIpv4Mapped = some v4 ∧ v4.Listed := by
      rw [Ipv6Addr.exists_localBlocks_iff, ← hmapped, isBlockedAddr, Bool.or_eq_true]
    show isBlockedAddr (.v6 x) = true ↔ x.Listed ∧ ¬ x.Documentation
    rw [hblocked, Ipv6Addr.Listed]
    by_cases hdoc : x.Documentation
    · obtain ⟨hlocal, hnone⟩ := hdoc.not_local
      refine iff_of_false ?_ fun h => h.2 hdoc
      rintro (h | ⟨v4, hv4, -⟩)
      · exact hlocal h
      · rw [hnone] at hv4
        cases hv4
    · simp [hdoc]

/-! ## URLs -/

inductive WebhookError where
  | unsupportedScheme (url : String)
  | invalidUrl (url : String)
  | userinfo (url : String)
  | invalidPort (url : String)
  | resolve (host error : String)
  | noAddress (host : String)
  | nonPublic (host : String) (ip : IpAddr)
deriving Repr, DecidableEq

structure WebhookUrl where
  host : String
  port : Nat
  path : String
deriving Repr, DecidableEq

def parseWebhookUrl (url : String) : Except WebhookError WebhookUrl :=
  match stripPrefix url "http://" with
  | none => .error (.unsupportedScheme url)
  | some rest =>
    let authority := (splitAuthority rest).1
    let path := if (splitAuthority rest).2 = "" then "/" else (splitAuthority rest).2
    if authority = "" then .error (.invalidUrl url)
    else if authority.toList.contains '@' then .error (.userinfo url)
    else
      match hostPort authority with
      | none => .error (.invalidPort url)
      | some (host, port) => .ok ⟨host, port, path⟩

/-! ## Notifying -/

/-- One answer of the resolver for a host and a port: addresses or an error. -/
abbrev Resolver := String → Nat → Except String (List SocketAddr)

def resolvePublicAddr (resolver : Resolver) (host : String) (port : Nat) :
    Except WebhookError SocketAddr :=
  match resolver host port with
  | .error e => .error (.resolve host e)
  | .ok [] => .error (.noAddress host)
  | .ok (first :: rest) =>
    match (first :: rest).find? fun a => isBlockedAddr a.ip with
    | some blocked => .error (.nonPublic host blocked.ip)
    | none => .ok first

def validateRegisterable (resolver : Resolver) (url : String) : Except WebhookError Unit :=
  match parseWebhookUrl url with
  | .error e => .error e
  | .ok target =>
    match resolvePublicAddr resolver target.host target.port with
    | .error e => .error e
    | .ok _ => .ok ()

/-- The address that is connected to and the bytes written there. -/
structure Delivery where
  addr : SocketAddr
  request : Bytes
deriving Repr, DecidableEq

def notification (repoId commitSha : String) : String :=
  "\x7b\"repo_id\":\"" ++ repoId ++ "\",\"commit_sha\":\"" ++ commitSha ++ "\"\x7d"

def requestText (host path repoId commitSha : String) : String :=
  let body := notification repoId commitSha
  "POST " ++ path ++ " HTTP/1.1\r\nHost: " ++ host ++
    "\r\nConnection: close\r\nContent-Type: application/json\r\nContent-Length: " ++
    toString (encode body).length ++ "\r\n\r\n" ++ body

def deliver (addr : SocketAddr) (host path repoId commitSha : String) : Delivery :=
  ⟨addr, encode (requestText host path repoId commitSha)⟩

def notify (resolver : Resolver) (url repoId commitSha : String) : Except WebhookError Delivery :=
  match parseWebhookUrl url with
  | .error e => .error e
  | .ok target =>
    match resolvePublicAddr resolver target.host target.port with
    | .error e => .error e
    | .ok addr => .ok (deliver addr target.host target.path repoId commitSha)

/-! ## The guard -/

theorem resolvePublicAddr_eq_ok {resolver : Resolver} {host : String} {port : Nat}
    {addr : SocketAddr} :
    resolvePublicAddr resolver host port = .ok addr ↔
      ∃ rest, resolver host port = .ok (addr :: rest) ∧
        ∀ a ∈ addr :: rest, isBlockedAddr a.ip = false := by
  unfold resolvePublicAddr
  cases resolver host port with
  | error e => simp
  | ok addrs =>
    cases addrs with
    | nil => simp
    | cons first rest =>
      dsimp only
      cases hfind : (first :: rest).find? fun a => isBlockedAddr a.ip with
      | some blocked =>
        have hmem := mem_of_find?_eq_some hfind
        have hblocked := find?_some hfind
        refine iff_of_false (by simp) ?_
        rintro ⟨rest', heq, hall⟩
        obtain ⟨rfl, rfl⟩ := List.cons.inj (Except.ok.inj heq)
        rw [hall blocked hmem] at hblocked
        cases hblocked
      | none =>
        have hall := find?_eq_none.mp hfind
        constructor
        · intro h
          obtain rfl := Except.ok.inj h
          exact ⟨rest, rfl, fun a ha => by simpa using hall a ha⟩
        · rintro ⟨rest', heq, -⟩
          obtain ⟨rfl, rfl⟩ := List.cons.inj (Except.ok.inj heq)
          rfl

theorem notify_eq_ok {resolver : Resolver} {url repoId commitSha : String} {d : Delivery} :
    notify resolver url repoId commitSha = .ok d ↔
      ∃ target addr, parseWebhookUrl url = .ok target ∧
        resolvePublicAddr resolver target.host target.port = .ok addr ∧
        d = deliver addr target.host target.path repoId commitSha := by
  unfold notify
  cases parseWebhookUrl url with
  | error e => simp
  | ok target =>
    cases haddr : resolvePublicAddr resolver target.host target.port with
    | error e => simp [haddr]
    | ok addr => simp [haddr, eq_comm]

/-- Nothing of the listed classes is connected to. -/
def GuardHolds (resolver : Resolver) (url repoId commitSha : String) : Prop :=
  ∀ d, notify resolver url repoId commitSha = .ok d → ¬ d.addr.ip.Listed

/-- The guard holds exactly if, whenever the answer for the URL's host holds no address of the other
listed classes, it does not start with one of a documentation block of IPv6. -/
theorem guardHolds_iff (resolver : Resolver) (url repoId commitSha : String) :
    GuardHolds resolver url repoId commitSha ↔
      ∀ target first rest, parseWebhookUrl url = .ok target →
        resolver target.host target.port = .ok (first :: rest) →
        (∀ a ∈ first :: rest, a.ip.Listed → a.ip.Documentation6) →
        ¬ first.ip.Documentation6 := by
  have hpublic : ∀ ip : IpAddr, isBlockedAddr ip = false ↔ (ip.Listed → ip.Documentation6) := by
    intro ip
    rw [← Bool.not_eq_true, isBlockedAddr_iff, not_and_not_right]
  have hlisted : ∀ ip : IpAddr, ip.Documentation6 → ip.Listed := by
    intro ip h
    cases ip with
    | v4 x => exact absurd h id
    | v6 x => exact .inr (.inl h)
  constructor
  · intro h target first rest hparse hresolve hpub hdoc
    have haddr : resolvePublicAddr resolver target.host target.port = .ok first :=
      resolvePublicAddr_eq_ok.mpr ⟨rest, hresolve, fun a ha => (hpublic _).mpr (hpub a ha)⟩
    exact h _ (notify_eq_ok.mpr ⟨target, first, hparse, haddr, rfl⟩) (hlisted _ hdoc)
  · intro h d hd hin
    obtain ⟨target, addr, hparse, haddr, rfl⟩ := notify_eq_ok.mp hd
    obtain ⟨rest, hresolve, hpub⟩ := resolvePublicAddr_eq_ok.mp haddr
    refine h target addr rest hparse hresolve (fun a ha => (hpublic _).mp (hpub a ha)) ?_
    exact (hpublic _).mp (hpub addr mem_cons_self) hin

def documentationHost : IpAddr := .v6 ⟨0x2001, 0xdb8, 0, 0, 0, 0, 0, 1⟩

theorem guard_documentation :
    documentationHost.Listed ∧
      validateRegisterable (fun _ port => .ok [⟨documentationHost, port⟩]) "http://hooks/x" =
        .ok () ∧
      ∃ d, notify (fun _ port => .ok [⟨documentationHost, port⟩]) "http://hooks/x" "repo" "a1" =
        .ok d ∧ d.addr.ip = documentationHost := by
  refine ⟨.inr (.inl ⟨⟨0x20010db8 * 2 ^ 96, 32⟩, by simp [Ipv6Addr.documentationBlocks], ?_⟩),
    rfl, _, rfl, rfl⟩
  decide

/-! ## Registering -/

inductive SetWebhookError where
  | repoId (repoId : String)
  | webhook (e : WebhookError)
deriving Repr, DecidableEq

/-- What `webhook.txt` holds afterwards; an empty URL removes it. -/
def setWebhook (resolver : Resolver) (repoId url : String) :
    Except SetWebhookError (Option String) :=
  if !isSafePathComponent repoId then .error (.repoId repoId)
  else if url = "" then .ok none
  else
    match validateRegisterable resolver url with
    | .error e => .error (.webhook e)
    | .ok () => .ok (some url)

def readWebhook (file : Option String) : Option String :=
  file.bind fun s => if trim s = "" then none else some (trim s)

def dispatchWebhook (resolver : Resolver) (file : Option String) (repoId sha : String) :
    Option (Except WebhookError Delivery) :=
  (readWebhook file).map fun url => notify resolver url repoId sha

/-! ## The request a subscriber should see -/

/-- A character inside a JSON string. -/
def jsonChar (c : Char) : List Char :=
  if c = '"' then ['\\', '"']
  else if c = '\\' then ['\\', '\\']
  else if c.toNat < 32 then
    ['\\', 'u', '0', '0', Hex.digitChar (c.toNat / 16), Hex.digitChar (c.toNat % 16)]
  else [c]

def jsonString (s : String) : String :=
  "\"" ++ String.ofList (s.toList.flatMap jsonChar) ++ "\""

/-- The notification as a JSON object. -/
def notificationJson (repoId commitSha : String) : String :=
  "\x7b" ++ (jsonString "repo_id" ++ ":" ++ jsonString repoId) ++ "," ++
    (jsonString "commit_sha" ++ ":" ++ jsonString commitSha) ++ "\x7d"

def notificationRequest (host path repoId commitSha : String) : Http.Request where
  method := "POST"
  target := path
  version := "HTTP/1.1"
  headers :=
    [("Host", host), ("Connection", "close"), ("Content-Type", "application/json"),
      ("Content-Length", toString (encode (notificationJson repoId commitSha)).length)]
  body := encode (notificationJson repoId commitSha)

theorem jsonString_of_safe {s : String} (h : isSafePathComponent s = true) :
    jsonString s = "\"" ++ s ++ "\"" := by
  have hplain : s.toList.flatMap jsonChar = s.toList := by
    have hall : ∀ c ∈ s.toList, jsonChar c = [c] := by
      intro c hc
      have hquote : c ≠ '"' := by
        rintro rfl
        exact not_mem_of_safe h (by decide) hc
      have hslash : c ≠ '\\' := by
        rintro rfl
        exact not_mem_of_safe h (by decide) hc
      have hcontrol : ¬ c.toNat < 32 := by
        intro hlt
        have hcode : ∀ n < 32, ((Char.ofNat n).isAlphanum || Char.ofNat n == '-' ||
            Char.ofNat n == '_' || Char.ofNat n == '.') = false := by decide
        have hnone := hcode c.toNat hlt
        rw [Char.ofNat_toNat] at hnone
        exact not_mem_of_safe h hnone hc
      rw [jsonChar, if_neg hquote, if_neg hslash, if_neg hcontrol]
    exact (flatMap_congr hall).trans (flatMap_singleton' _)
  rw [jsonString, hplain, String.ofList_toList]

variable {repoId commitSha url : String} {file : Option String}

theorem notification_eq (hrepo : isSafePathComponent repoId = true)
    (hsha : isSafePathComponent commitSha = true) :
    notification repoId commitSha = notificationJson repoId commitSha := by
  have hfirst : jsonString "repo_id" = "\"repo_id\"" := by decide
  have hsecond : jsonString "commit_sha" = "\"commit_sha\"" := by decide
  simp only [notificationJson, jsonString_of_safe hrepo, jsonString_of_safe hsha, hfirst, hsecond]
  delta notification
  rw [← String.toList_inj]
  simp

theorem encode_requestText (host path : String) (hrepo : isSafePathComponent repoId = true)
    (hsha : isSafePathComponent commitSha = true) :
    encode (requestText host path repoId commitSha) =
      (notificationRequest host path repoId commitSha).write := by
  have hcrlf : crlf = encode "\r\n" := by decide
  have hline : (notificationRequest host path repoId commitSha).line =
      "POST " ++ path ++ " HTTP/1.1" := by
    simp only [Http.Request.line, notificationRequest, String.intercalate_cons_cons,
      String.intercalate_singleton, String.append_assoc]
    rfl
  have hbody := notification_eq hrepo hsha
  unfold requestText Http.Request.write Http.Request.headLines
  rw [hline, hbody]
  simp only [notificationRequest, map_cons, map_nil, fieldLine,
    endedLines, flatMap_cons, flatMap_nil, append_nil, hcrlf,
    ← encode_append]
  refine congrArg encode ?_
  have h1 : " HTTP/1.1\r\nHost: " = " HTTP/1.1" ++ "\r\n" ++ "Host" ++ ": " := by decide
  have h2 : "\r\nConnection: close\r\nContent-Type: application/json\r\nContent-Length: " =
      "\r\n" ++ "Connection" ++ ": " ++ "close" ++ "\r\n" ++ "Content-Type" ++ ": " ++
        "application/json" ++ "\r\n" ++ "Content-Length" ++ ": " := by decide
  have h3 : "\r\n\r\n" = "\r\n" ++ "\r\n" := by decide
  simp only [h1, h2, h3, String.append_assoc]

/-! ## When it is one request -/

/-- A host that stays inside its header. -/
structure HostOk (host : String) : Prop where
  cr : '\r' ∉ host.toList
  lf : '\n' ∉ host.toList
  nul : '\x00' ∉ host.toList
  trimmed : trimBlanks host = host

theorem contentLength_notification (host path repoId commitSha : String) :
    contentLength (notificationRequest host path repoId commitSha).headers =
      some (notificationRequest host path repoId commitSha).body.length := by
  have hhost : eqIgnoreAsciiCase "Host" "content-length" = false := by decide
  have hconnection : eqIgnoreAsciiCase "Connection" "content-length" = false := by decide
  have htype : eqIgnoreAsciiCase "Content-Type" "content-length" = false := by decide
  have hlength : eqIgnoreAsciiCase "Content-Length" "content-length" = true := by decide
  refine contentLength_number (n := "Content-Length") ?_
  simp only [notificationRequest, find?_cons, hhost, hconnection, htype, hlength]

theorem wellFormed_notificationRequest (host path repoId commitSha : String) :
    (notificationRequest host path repoId commitSha).WellFormed ↔
      isWord path = true ∧ HostOk host := by
  constructor
  · intro h
    have hhost := h.headers ("Host", host) mem_cons_self
    exact ⟨h.target, hhost.cr, hhost.lf, hhost.nul, hhost.trimmed⟩
  · rintro ⟨hpath, hhost⟩
    have hpost : isWord "POST" = true := by decide
    have hversion : isWord "HTTP/1.1" = true := by decide
    refine ⟨hpost, hpath, hversion, fun h hh => ?_, contentLength_notification _ _ _ _⟩
    simp only [notificationRequest, mem_cons, not_mem_nil, or_false] at hh
    rcases hh with rfl | rfl | rfl | rfl
    · have hname : isWord "Host" = true := by decide
      have hcolon : ':' ∉ "Host".toList := by decide
      exact ⟨hname, hcolon, hhost.cr, hhost.lf, hhost.nul, hhost.trimmed⟩
    · exact ⟨by decide, by decide, by decide, by decide, by decide, by decide⟩
    · exact ⟨by decide, by decide, by decide, by decide, by decide, by decide⟩
    · exact fieldOk_number (by decide) (by decide) _

/-- Whatever the resolver answers, a notification is read as one request: for the path of `url`,
with the fixed headers and the notification as its body. -/
def SendsOneRequest (file : Option String) (url repoId commitSha : String) : Prop :=
  ∀ resolver d, dispatchWebhook resolver file repoId commitSha = some (.ok d) →
    ∃ target, parseWebhookUrl url = .ok target ∧ readRequest d.request =
        some (notificationRequest target.host target.path repoId commitSha, [])

/-- Host and path of the URL stay where they are put. -/
def UrlOk (url : String) : Prop :=
  ∀ target, parseWebhookUrl url = .ok target →
    isWord target.path = true ∧ HostOk target.host

theorem request_dispatched {atDispatch : Resolver} {d : Delivery}
    (hrepo : isSafePathComponent repoId = true) (hsha : isSafePathComponent commitSha = true)
    (h : notify atDispatch url repoId commitSha = .ok d) :
    ∃ target, parseWebhookUrl url = .ok target ∧
      d.request = (notificationRequest target.host target.path repoId commitSha).write := by
  obtain ⟨target, addr, hparse, -, rfl⟩ := notify_eq_ok.mp h
  exact ⟨target, hparse, encode_requestText target.host target.path hrepo hsha⟩

theorem setWebhook_eq_ok {resolver : Resolver} (h : setWebhook resolver repoId url = .ok file) :
    isSafePathComponent repoId = true ∧ (file = none ∧ url = "" ∨ file = some url) := by
  unfold setWebhook at h
  split at h
  · cases h
  · rename_i hsafe
    refine ⟨by simpa using hsafe, ?_⟩
    split at h
    · rename_i hurl
      exact .inl ⟨(Except.ok.inj h).symm, hurl⟩
    · cases hvalid : validateRegisterable resolver url with
      | error e => rw [hvalid] at h; cases h
      | ok u =>
        rw [hvalid] at h
        exact .inr (Except.ok.inj h).symm

/-- What a registered URL leaves in the file is dispatched without the white space around it. -/
theorem dispatchWebhook_registered {atRegistration : Resolver}
    (h : setWebhook atRegistration repoId url = .ok file) (hurl : trim url ≠ "")
    (atDispatch : Resolver) (commitSha : String) : isSafePathComponent repoId = true ∧
      dispatchWebhook atDispatch file repoId commitSha =
        some (notify atDispatch (trim url) repoId commitSha) := by
  obtain ⟨hrepo, ⟨-, rfl⟩ | rfl⟩ := setWebhook_eq_ok h
  · exact absurd (by decide) hurl
  · refine ⟨hrepo, ?_⟩
    rw [dispatchWebhook, readWebhook, Option.bind_some, if_neg hurl, Option.map_some]

def publicHost : IpAddr := .v4 ⟨8, 8, 8, 8⟩

/-- For a URL that `setWebhook` accepts, every notification is one request exactly if the URL's path
is one word of visible characters and its host stays inside its header. -/
theorem webhook_request_iff (atRegistration : Resolver) (url repoId commitSha : String)
    (file : Option String) (hset : setWebhook atRegistration repoId url = .ok file)
    (hsha : isSafePathComponent commitSha = true) :
    SendsOneRequest file (trim url) repoId commitSha ↔ UrlOk (trim url) := by
  by_cases hurl : trim url = ""
  · -- Nothing is registered.
    have hnone : ∀ resolver, dispatchWebhook resolver file repoId commitSha = none := by
      intro resolver
      rcases setWebhook_eq_ok hset with ⟨-, ⟨rfl, -⟩ | rfl⟩
      · rfl
      · rw [dispatchWebhook, readWebhook, Option.bind_some, if_pos hurl, Option.map_none]
    refine iff_of_true (fun resolver d hd => ?_) (fun target htarget => ?_)
    · rw [hnone] at hd
      cases hd
    · rw [hurl] at htarget
      cases htarget
  · have hdispatch := dispatchWebhook_registered hset hurl
    constructor
    · intro h target htarget
      have haddr : resolvePublicAddr (fun _ port => .ok [⟨publicHost, port⟩]) target.host
          target.port = .ok ⟨publicHost, target.port⟩ := rfl
      have hnotify : notify (fun _ port => .ok [⟨publicHost, port⟩]) (trim url) repoId commitSha =
          .ok (deliver ⟨publicHost, target.port⟩ target.host target.path repoId commitSha) :=
        notify_eq_ok.mpr ⟨target, _, htarget, haddr, rfl⟩
      obtain ⟨hrepo, heq⟩ := hdispatch (fun _ port => .ok [⟨publicHost, port⟩]) commitSha
      obtain ⟨target', htarget', hread⟩ := h _ _ (heq.trans (congrArg some hnotify))
      obtain rfl := Except.ok.inj (htarget.symm.trans htarget')
      rw [deliver, encode_requestText _ _ hrepo hsha, readRequest_write_iff] at hread
      exact (wellFormed_notificationRequest _ _ _ _).mp hread
    · intro h resolver d hd
      obtain ⟨hrepo, heq⟩ := hdispatch resolver commitSha
      rw [heq, Option.some_inj] at hd
      obtain ⟨target, htarget, hrequest⟩ := request_dispatched hrepo hsha hd
      refine ⟨target, htarget, ?_⟩
      rw [hrequest, readRequest_write_iff]
      exact (wellFormed_notificationRequest _ _ _ _).mpr (h target htarget)

theorem webhook_request_hooks :
    setWebhook (fun _ port => .ok [⟨publicHost, port⟩]) "repo" "http://hooks/x" =
        .ok (some "http://hooks/x") ∧
      SendsOneRequest (some "http://hooks/x") (trim "http://hooks/x") "repo" "a1" := by
  have htarget : parseWebhookUrl (trim "http://hooks/x") = .ok ⟨"hooks", 80, "/x"⟩ := by decide
  refine ⟨by decide, (webhook_request_iff (fun _ port => .ok [⟨publicHost, port⟩]) _ _ _ _
    (by decide) (by decide)).mpr fun target h => ?_⟩
  obtain rfl := Except.ok.inj (htarget.symm.trans h)
  exact ⟨by decide, by decide, by decide, by decide, by decide⟩

/-- A URL whose path brings the end of the request line and a header of its own. -/
def injectingUrl : String := "http://hooks/x HTTP/1.1\r\nX-Injected: 1\r\nX-Rest:"

/-- What is read where `injectingUrl` is registered. -/
def injectedRequest : Http.Request where
  method := "POST"
  target := "/x"
  version := "HTTP/1.1"
  headers :=
    [("X-Injected", "1"), ("X-Rest", "HTTP/1.1"), ("Host", "hooks"), ("Connection", "close"),
      ("Content-Type", "application/json"), ("Content-Length", "36")]
  body := encode (notificationJson "repo" "a1")

theorem webhook_request_injected :
    setWebhook (fun _ port => .ok [⟨publicHost, port⟩]) "repo" injectingUrl =
        .ok (some injectingUrl) ∧
      ¬ SendsOneRequest (some injectingUrl) (trim injectingUrl) "repo" "a1" ∧
      ∃ d, dispatchWebhook (fun _ port => .ok [⟨publicHost, port⟩]) (some injectingUrl) "repo"
          "a1" = some (.ok d) ∧
        readRequest d.request = some (injectedRequest, []) := by
  have htarget : parseWebhookUrl injectingUrl =
      .ok ⟨"hooks", 80, "/x HTTP/1.1\r\nX-Injected: 1\r\nX-Rest:"⟩ := by decide +kernel
  have hset : setWebhook (fun _ port => .ok [⟨publicHost, port⟩]) "repo" injectingUrl =
      .ok (some injectingUrl) := by
    decide +kernel
  have hdispatch : dispatchWebhook (fun _ port => .ok [⟨publicHost, port⟩]) (some injectingUrl)
      "repo" "a1" = some (.ok (deliver ⟨publicHost, 80⟩ "hooks"
        "/x HTTP/1.1\r\nX-Injected: 1\r\nX-Rest:" "repo" "a1")) := by
    have hnotify := @notify_eq_ok (fun _ port => .ok [⟨publicHost, port⟩]) injectingUrl "repo" "a1"
    exact congrArg some (hnotify.mpr ⟨_, _, htarget, rfl, rfl⟩)
  have hwrite : (deliver ⟨publicHost, 80⟩ "hooks" "/x HTTP/1.1\r\nX-Injected: 1\r\nX-Rest:"
      "repo" "a1").request = injectedRequest.write := by decide +kernel
  have hok : injectedRequest.WellFormed := by decide +kernel
  have hread : readRequest (deliver ⟨publicHost, 80⟩ "hooks"
      "/x HTTP/1.1\r\nX-Injected: 1\r\nX-Rest:" "repo" "a1").request =
        some (injectedRequest, []) := by
    rw [hwrite]
    exact readRequest_write_iff.mpr hok
  refine ⟨hset, fun h => ?_, _, hdispatch, hread⟩
  obtain ⟨target, htarget', hone⟩ := h _ _ hdispatch
  obtain rfl := Except.ok.inj (htarget.symm.trans htarget')
  have hsame := congrArg Http.Request.target
    (Prod.mk.inj (Option.some.inj (hread.symm.trans hone))).1
  exact absurd hsame (by decide)

end WeaveGraph.Hub
