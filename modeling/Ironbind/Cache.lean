import Mathlib.Data.List.AList
import Ironbind.Proto

/- The answer cache (`cache.rs`): entries by lower-case name and type code, each
   with the instant it expires at. Instants are nanoseconds of a monotonic clock. -/
namespace Ironbind
open Codec

inductive NegativeKind where
  | NxDomain | NoData
  deriving DecidableEq, Repr

inductive CacheValue where
  | Records (records : List Record)
  | Negative (kind : NegativeKind)
  deriving DecidableEq, Repr

structure CacheEntry where
  value : CacheValue
  expires : Nat
  ttl : UInt32

abbrev CacheKey : Type := Text × UInt16

abbrev Cache : Type := AList fun _ : CacheKey => CacheEntry

def nanosPerSec : Nat := 1000000000

namespace Cache

def new : Cache := ∅

def key (name : Text) (qtype : RType) : CacheKey := (toAsciiLowercase name, qtype.toU16)

/-- The entry for a name and type, unless it has expired. -/
def get (cache : Cache) (now : Nat) (name : Text) (qtype : RType) : Option CacheValue :=
  match cache.lookup (key name qtype) with
  | some e => if e.expires > now then some e.value else none
  | none => none

def insertValue (cache : Cache) (now : Nat) (name : Text) (qtype : RType) (value : CacheValue) (ttl : UInt32) : Cache :=
  AList.insert (key name qtype) ⟨value, now + ttl.toNat * nanosPerSec, ttl⟩ cache

/-- Positive answers are kept for a second at least and a day at most. -/
def insertPositive (cache : Cache) (now : Nat) (name : Text) (qtype : RType) (records : List Record) (ttl : UInt32) :
    Cache :=
  cache.insertValue now name qtype (.Records records) (max 1 (min ttl 86400))

/-- Negative answers are kept for a second at least and three hours at most. -/
def insertNegative (cache : Cache) (now : Nat) (name : Text) (qtype : RType) (kind : NegativeKind) (soaTtl : UInt32) :
    Cache :=
  cache.insertValue now name qtype (.Negative kind) (max (min soaTtl 10800) 1)

/-- The sweep of the background thread. -/
def evictExpired (cache : Cache) (now : Nat) : Cache :=
  ⟨cache.entries.filter fun e => e.2.expires > now,
    List.nodupKeys_iff_pairwise.mpr ((List.nodupKeys_iff_pairwise.mp cache.nodupKeys).filter _)⟩

/-- The sweep only removes entries. -/
theorem lookup_of_evictExpired {cache : Cache} {k : CacheKey} {now : Nat} {entry : CacheEntry}
    (hk : (cache.evictExpired now).lookup k = some entry) : cache.lookup k = some entry :=
  AList.mem_lookup_iff.mpr (List.mem_filter.mp (AList.mem_lookup_iff.mp hk)).1

def size (cache : Cache) : Nat := cache.entries.length

end Cache

theorem length_keys_insert {α : Type} {β : α → Type} [DecidableEq α] (m : AList β) (a : α) (b : β a) :
    (m.insert a b).keys.length = if a ∈ m then m.keys.length else m.keys.length + 1 := by
  rw [AList.keys_insert, List.length_cons]
  split
  · next hmem =>
    have hmem : a ∈ m.keys := hmem
    have hpos := List.length_pos_of_mem hmem
    rw [List.length_erase_of_mem hmem]
    omega
  · next hmem => rw [List.erase_of_not_mem hmem]

/-- A read that falls back on a value; what it consumed stays consumed. -/
def Parser.unwrapOr {α : Type} (p : Parser α) (fallback : α) : Parser α := fun buf pos =>
  match p buf pos with
  | (.ok a, pos) => (.ok a, pos)
  | (.error _, pos) => (.ok fallback, pos)

/-- The MINIMUM field behind the names and the four other fields. -/
def soaMinimum : Parser UInt32 := do
  let _mname ← Parser.name
  let _rname ← Parser.name
  let _serial ← Parser.unwrapOr Parser.u32 0
  let _refresh ← Parser.unwrapOr Parser.u32 0
  let _retry ← Parser.unwrapOr Parser.u32 0
  let _expire ← Parser.unwrapOr Parser.u32 0
  Parser.unwrapOr Parser.u32 300

def soaMinimumTtl (soaRdata : Bytes) : UInt32 :=
  match soaMinimum.run soaRdata with
  | .ok minimum => minimum
  | .error _ => 300

end Ironbind
