import Albedo.Library.KeyedList
import Albedo.Library.Utf8
import Mathlib.Data.List.Sort

/-!
# The response cache

Responses are kept under a key made of the method, the address and who may share the answer. Each
use of an entry takes a tick, and when the entries are too large together those with the oldest
ticks go first.
-/
namespace Albedo.Fetch
open KeyedList

abbrev Bytes := List UInt8

/-! ### Keys -/

inductive CacheScope
  | pub
  | app
  | principal (id : List Char)
  deriving DecidableEq

def CacheScope.tag : CacheScope → List Char
  | .pub => "public".toList
  | .app => "app".toList
  | .principal id =>
      "user:".toList ++ (toString (Utf8.encode id).length).toList ++ ':' :: id

def nul : Char := Char.ofNat 0

structure ResourceKey where
  canonical : List Char
  deriving DecidableEq

def ResourceKey.new (method url : List Char) (scope : CacheScope) : ResourceKey :=
  ⟨method.map Char.toUpper ++ nul :: (url ++ nul :: scope.tag)⟩

/-! ### Responses -/

structure Validators where
  etag : Option (List Char)
  lastModified : Option (List Char)

def bytesOf (text : Option (List Char)) : ℕ := (text.map fun s => (Utf8.encode s).length).getD 0

def Validators.footprint (v : Validators) : ℕ := bytesOf v.etag + bytesOf v.lastModified

structure CachedResponse where
  status : ℕ
  body : Bytes
  contentType : Option (List Char)
  validators : Validators

def CachedResponse.footprint (r : CachedResponse) : ℕ :=
  r.body.length + bytesOf r.contentType + r.validators.footprint

/-! ### Entries -/

structure Entry where
  response : CachedResponse
  /-- The tick of its last use. -/
  touched : ℕ
  /-- When the body was last known to be current. -/
  verifiedAt : ℕ
  footprint : ℕ

structure CacheHit where
  response : CachedResponse
  fresh : Bool
  age : ℕ

structure ResponseCache where
  entries : List (ResourceKey × Entry)
  tick : ℕ
  budget : ℕ
  nodup : (keys entries).Nodup

namespace ResponseCache

variable (cache : ResponseCache) (key : ResourceKey)

def new (budget : ℕ) : ResponseCache := ⟨[], 0, budget, List.nodup_nil⟩

def find : Option Entry := cache.entries.lookup key

def put (entry : Entry) : ResponseCache where
  entries := KeyedList.put key { entry with touched := cache.tick } cache.entries
  tick := cache.tick + 1
  budget := cache.budget
  nodup := nodup_put key _ cache.nodup

/-- A window of `none` has no end. -/
def get (now : ℕ) (ttl : Option ℕ) : Option CacheHit × ResponseCache :=
  match cache.find key with
  | none => (none, cache)
  | some entry =>
      let age := now - entry.verifiedAt
      (some ⟨entry.response, ttl.all fun ttl => age ≤ ttl, age⟩, cache.put key entry)

def validators : Option Validators := (cache.find key).map fun entry => entry.response.validators

def insert (now : ℕ) (response : CachedResponse) : ResponseCache :=
  cache.put key
    ⟨response, cache.tick, now, response.footprint + (Utf8.encode key.canonical).length⟩

/-- The end of `mark_revalidated`: the entry that was read is stored again. -/
def refresh (now : ℕ) (entry : Entry) : ResponseCache :=
  cache.put key { entry with verifiedAt := now }

def remove : ResponseCache where
  entries := KeyedList.remove key cache.entries
  tick := cache.tick
  budget := cache.budget
  nodup := by
    rw [keys_remove]
    exact cache.nodup.filter _

def residentBytes : ℕ := (cache.entries.map fun e => e.2.footprint).sum

/-- The entries with their ticks and sizes, those used longest ago first. -/
def candidates : List (ℕ × ResourceKey × ℕ) :=
  (cache.entries.map fun e => (e.2.touched, e.1, e.2.footprint)).mergeSort fun a b => a.1 ≤ b.1

/-! ### What is under a key -/

variable {cache key}

theorem find_put (other : ResourceKey) (entry : Entry) :
    (cache.put key entry).find other =
      if other = key then some { entry with touched := cache.tick } else cache.find other :=
  lookup_put key other _ cache.entries

theorem find_remove (other : ResourceKey) :
    (cache.remove key).find other = if other = key then none else cache.find other := by
  unfold find remove
  rw [lookup_remove]

theorem get_of_none {now : ℕ} {ttl : Option ℕ} (h : cache.find key = none) :
    cache.get key now ttl = (none, cache) := by
  unfold get
  rw [h]

theorem get_of_some {now : ℕ} {ttl : Option ℕ} {entry : Entry} (h : cache.find key = some entry) :
    cache.get key now ttl =
      (some ⟨entry.response, ttl.all fun ttl => now - entry.verifiedAt ≤ ttl, now - entry.verifiedAt⟩,
        cache.put key entry) := by
  unfold get
  rw [h]

theorem response_get (now : ℕ) (ttl : Option ℕ) (other : ResourceKey) :
    ((cache.get key now ttl).2.find other).map Entry.response =
      (cache.find other).map Entry.response := by
  unfold get
  cases hentry : cache.find key with
  | none => rfl
  | some entry =>
      dsimp only
      rw [find_put]
      split_ifs with hother
      · rw [hother, hentry]
        rfl
      · rfl

theorem exists_of_get {now : ℕ} {ttl : Option ℕ} {hit : CacheHit} {after : ResponseCache}
    (h : cache.get key now ttl = (some hit, after)) :
    ∃ entry, cache.find key = some entry ∧ hit.response = entry.response ∧
      (ttl = none → hit.fresh = true) := by
  unfold get at h
  cases hentry : cache.find key with
  | none =>
      rw [hentry] at h
      cases h
  | some entry =>
      rw [hentry] at h
      cases h
      refine ⟨entry, rfl, rfl, ?_⟩
      rintro rfl
      rfl

end ResponseCache

end Albedo.Fetch
