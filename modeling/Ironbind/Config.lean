import Mathlib.Data.List.Basic

/- The part of the configuration (`config.rs`) that a query meets, and the client
   networks recursion is allowed to. -/
namespace Ironbind

inductive IpAddr where
  | V4 (bits : BitVec 32)
  | V6 (bits : BitVec 128)
  deriving DecidableEq, Repr

/-- An IPv4-mapped IPv6 address as its IPv4 address. -/
def IpAddr.toCanonical : IpAddr → IpAddr
  | V4 bits => V4 bits
  | V6 bits => if bits >>> 32 = BitVec.ofNat 128 0xFFFF then V4 (bits.setWidth 32) else V6 bits

/-- An address range: an address and the number of leading bits that count. -/
structure Network where
  address : IpAddr
  prefixLength : UInt8

/-- `MAX.checked_shl(width - prefix).unwrap_or(0)`. -/
def prefixMask (width : Nat) (prefixLength : UInt8) : BitVec width :=
  if width - prefixLength.toNat < width then BitVec.allOnes width <<< (width - prefixLength.toNat) else 0

def Network.contains (network : Network) (ip : IpAddr) : Bool :=
  match network.address, ip.toCanonical with
  | .V4 address, .V4 ip =>
    address &&& prefixMask 32 network.prefixLength == ip &&& prefixMask 32 network.prefixLength
  | .V6 address, .V6 ip =>
    address &&& prefixMask 128 network.prefixLength == ip &&& prefixMask 128 network.prefixLength
  | _, _ => false

structure ServerConfig where
  dnssecValidate : Bool
  /-- Walk the full chain from the root anchors instead of trusting the keys upstream sent. -/
  dnssecStrict : Bool
  allowRecursion : List Network
  /-- `cache.max_entries`: loaded, and read by nothing. -/
  cacheMax : Nat
  negCacheTtl : UInt32
  tsigRequireAll : Bool

end Ironbind
