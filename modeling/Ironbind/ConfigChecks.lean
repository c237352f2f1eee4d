import Ironbind.AddressText
import Ironbind.ConfigText

/- Whether `load` takes over what the configuration file says. `FailsClosed` asks of a load
   that it does not panic and that it fails unless every key that is given has a value of its
   type, which is then the setting; the last entry of a key counts, and the file is read as
   in `ConfigText`. Nothing in `load` but the networks of `allow_recursion` is checked, so of
   a regular text this holds only when there is nothing to find: `WellTyped` entries, whose
   groups of keys are complete (`loadConfig_failsClosed_iff`). -/
namespace Ironbind
open Codec

/-- The values that entries give a key of a section, in their order. -/
def valuesIn (es : List ConfigEntry) (sec key : String) : List Text :=
  (es.filter fun e => e.sec = some sec.toList ∧ e.key = key.toList).map ConfigEntry.value

def given (content : Text) (sec key : String) : List Text := valuesIn (configEntries content) sec key

/-- A key that is given has a value of its type in its last entry, with `ok` true of it. -/
def Given {α : Type} (content : Text) (sec key : String) (mean : Text → Option α) (ok : α → Prop) : Prop :=
  ∀ text ∈ (given content sec key).getLast?, ∃ x ∈ mean text, ok x

/-! The keys. -/

structure Key (σ α : Type) where
  sec : String
  name : String
  field : σ → α

/-- A number of `bits` bits. -/
structure NumberKey (σ : Type) extends Key σ Nat where
  bits : Nat

def textKeys : List (Key ServerSettings Text) :=
  [⟨"server", "bind", (·.bind)⟩, ⟨"server", "log_level", (·.logLevel)⟩]

def flagKeys : List (Key ServerSettings Bool) :=
  [⟨"server", "use_forwarders", (·.useForwarders)⟩, ⟨"server", "dnssec_validate", (·.dnssecValidate)⟩,
    ⟨"server", "dnssec_strict", (·.dnssecStrict)⟩, ⟨"server", "log_queries", (·.logQueries)⟩,
    ⟨"tsig", "require_all_queries", (·.tsigRequireAll)⟩]

def numberKeys : List (NumberKey ServerSettings) :=
  [⟨⟨"server", "port", (·.port.toNat)⟩, 16⟩, ⟨⟨"cache", "max_entries", (·.cacheMax)⟩, 64⟩,
    ⟨⟨"cache", "neg_ttl", (·.negCacheTtl.toNat)⟩, 32⟩, ⟨⟨"server", "tcp_timeout_ms", (·.tcpTimeoutMs.toNat)⟩, 64⟩,
    ⟨⟨"server", "worker_threads", (·.workerThreads.toNat)⟩, 64⟩,
    ⟨⟨"server", "udp_receivers", (·.udpReceivers.toNat)⟩, 64⟩, ⟨⟨"metrics", "port", (·.metricsPort.toNat)⟩, 16⟩]

/-- The keys of a TLS listener. -/
def listenerKeys : List (String × (TlsListenerConfig → Text)) :=
  [("bind", (·.bind)), ("cert", (·.certPath)), ("key", (·.keyPath))]

def listeners : List (String × (ServerSettings → Option TlsListenerConfig)) := [("dot", (·.dot)), ("doh", (·.doh))]

def nameKeys : List (String × (TsigKeySource → Text)) := [("name", (·.name)), ("algorithm", (·.algorithm))]

/-- Where the secret of the TSIG key is found. -/
def secretKeys : List (String × (Text → TsigSecretSource)) :=
  [("secret_keychain", .Keychain), ("secret_file", .File), ("secret", .Inline)]

def rateKeys : List (String × (RateLimitConfig → Nat)) :=
  [("queries_per_second", (·.queriesPerSecond.toNat)), ("global_queries_per_second", (·.globalQueriesPerSecond.toNat))]

/-! What a load is to do. -/

/-- Every key that is given has a value of its type, and that is the setting. -/
structure Faithful (content : Text) (c : ServerSettings) : Prop where
  texts : ∀ k ∈ textKeys, Given content k.sec k.name textIn fun s => k.field c = s
  flags : ∀ k ∈ flagKeys, Given content k.sec k.name flagIn fun b => k.field c = b
  numbers : ∀ k ∈ numberKeys, Given content k.sec k.name numberIn fun n => (k.field c : Int) = n
  networks : Given content "server" "allow_recursion" listIn fun l => c.allowRecursion.map some = l.items.map Network.parse
  zoneFiles : Given content "zones" "files" listIn fun l => c.zoneFiles = l.items
  listener : ∀ l ∈ listeners, ∀ k ∈ listenerKeys, Given content l.1 k.1 textIn fun s => ∃ d ∈ l.2 c, k.2 d = s
  tsigNames : ∀ k ∈ nameKeys, Given content "tsig" k.1 textIn fun s => ∃ key ∈ c.tsigKeys, k.2 key = s
  secrets : ∀ k ∈ secretKeys, Given content "tsig" k.1 textIn fun s => ∃ key ∈ c.tsigKeys, key.secretSource = k.2 s
  rates : ∀ k ∈ rateKeys, Given content "ratelimit" k.1 numberIn fun n => ∃ r ∈ c.rateLimit, (k.2 r : Int) = n
  perIp : Given content "ratelimit" "per_ip" flagIn fun b => ∃ r ∈ c.rateLimit, r.perIp = b
  tracked : Given content "ratelimit" "max_tracked_sources" numberIn fun n =>
    ∃ r ∈ c.rateLimit, (r.maxTrackedSources.toNat : Int) = n

/-- **Failing closed**: a load that does not panic, and that fails where it cannot do what the file says. -/
def FailsClosed (content : Text) : Prop :=
  loadConfig content ≠ .error .sliceReversed ∧ ∀ c, loadConfig content = .ok c → Faithful content c

/-! When it is done. -/

def IsGiven (content : Text) (sec key : String) : Prop := given content sec key ≠ []

/-- Of a group of keys none is given, or all are. -/
def Complete (content : Text) (sec : String) (keys : List String) : Prop :=
  (∃ k ∈ keys, IsGiven content sec k) → ∀ k ∈ keys, IsGiven content sec k

/-- The rate limiter is switched on. -/
def Limited (content : Text) : Prop := ∃ k ∈ rateKeys, IsGiven content "ratelimit" k.1

/-- There is an entry of `allow_recursion` that is no network. -/
def RecursionRefused (content : Text) : Prop :=
  ∃ v ∈ ((given content "server" "allow_recursion").filterMap valueOf).getLast?, ∃ items ∈ Toml.arrayOf v,
    ∃ entry ∈ items, Network.parse entry = none

/-- Every key has a value of its type, within the width of its setting, and beside the keys it needs: a listener has
    all three of its keys, a TSIG key its name, its algorithm and one secret, and the limiter a rate. -/
structure WellTyped (content : Text) : Prop where
  texts : ∀ k ∈ textKeys, Given content k.sec k.name textIn fun _ => True
  flags : ∀ k ∈ flagKeys, Given content k.sec k.name flagIn fun _ => True
  numbers : ∀ k ∈ numberKeys, Given content k.sec k.name numberIn fun n => 0 ≤ n ∧ n < 2 ^ k.bits
  networks : Given content "server" "allow_recursion" listIn Listing.Plain
  zoneFiles : Given content "zones" "files" listIn Listing.Plain
  listener : ∀ l ∈ listeners, (∀ k ∈ listenerKeys, Given content l.1 k.1 textIn fun _ => True) ∧
    Complete content l.1 (listenerKeys.map Prod.fst)
  tsigNames : ∀ k ∈ nameKeys, Given content "tsig" k.1 textIn fun _ => ∃ s ∈ secretKeys, IsGiven content "tsig" s.1
  tsigComplete : Complete content "tsig" (nameKeys.map Prod.fst)
  secrets : ∀ k ∈ secretKeys, Given content "tsig" k.1 textIn fun _ =>
    (∀ n ∈ nameKeys, IsGiven content "tsig" n.1) ∧ ∀ s ∈ secretKeys, IsGiven content "tsig" s.1 → s.1 = k.1
  rates : ∀ k ∈ rateKeys, Given content "ratelimit" k.1 numberIn fun n => 0 ≤ n ∧ n < 2 ^ 32
  perIp : Given content "ratelimit" "per_ip" flagIn fun _ => Limited content
  tracked : Given content "ratelimit" "max_tracked_sources" numberIn fun n => Limited content ∧ 1 ≤ n ∧ n < 2 ^ 64

/-! The parsed file. -/

theorem get_insert (t : Toml) (at_ : Option Text) (k : Text) (v : TomlVal) (sec key : String) :
    (t.insert at_ k v).get (some sec) key =
      if at_ = some sec.toList ∧ k = key.toList then some v else t.get (some sec) key := by
  cases at_ with
  | none => simp [Toml.insert, Toml.get]
  | some s =>
    simp only [Toml.insert, Toml.get, Function.update_apply, Option.some.injEq]
    by_cases hs : s = sec.toList
    · subst hs
      by_cases hk : k = key.toList
      · simp [hk]
      · cases hmap : t.sections sec.toList with
        | none => simp [hk, Ne.symm hk]
        | some map => simp [hk, Ne.symm hk]
    · simp [hs, Ne.symm hs]

/-- The last value a key is given is the one it has. -/
theorem get_foldl_enter (es : List ConfigEntry) (sec key : String) :
    (es.foldl enter Toml.empty).get (some sec) key = ((valuesIn es sec key).filterMap valueOf).getLast? := by
  induction es using List.reverseRecOn with
  | nil => rfl
  | append_singleton es e ih =>
    rw [List.foldl_append, List.foldl_cons, List.foldl_nil, valuesIn, List.filter_append, List.map_append,
      List.filterMap_append, enter]
    by_cases hkey : e.sec = some sec.toList ∧ e.key = key.toList
    · rw [List.filter_cons_of_pos (by simpa using hkey), List.filter_nil]
      cases hv : valueOf e.value with
      | none => simpa [hv, valuesIn] using ih
      | some v => simp [hv, get_insert, hkey]
    · rw [List.filter_cons_of_neg (by simpa using hkey), List.filter_nil]
      cases hv : valueOf e.value with
      | none => simpa [valuesIn] using ih
      | some v => simpa [get_insert, hkey, valuesIn] using ih

/-! Typed values of a parsed file. -/

/-- A parsed file gives every key the last value that its entries have, and the parser can follow them all. -/
structure Reads (content : Text) (t : Toml) : Prop where
  get : ∀ sec key, t.get (some sec) key = ((given content sec key).filterMap valueOf).getLast?
  regular : ∀ sec key, ∀ text ∈ given content sec key, RegularValue text

/-- What a value stands for, the parser reads. -/
def ReadAs {α : Type} (mean : Text → Option α) (read : TomlVal → Option α) : Prop :=
  ∀ v, RegularValue v → ∀ x, mean v = some x → (valueOf v).bind read = some x

theorem textIn_readAs : ReadAs textIn Toml.strOf := fun v hv s hs => by
  rw [valueOf_textIn hv.oneLine hv.calm hs]
  rfl

theorem numberIn_readAs : ReadAs numberIn Toml.intOf := fun _ hv _ hn => valueOf_numberIn hv.oneLine hv.calm hn

theorem flagIn_readAs : ReadAs flagIn Toml.boolOf := fun _ hv _ hb => valueOf_flagIn hv.oneLine hv.calm hb

section
variable {content : Text} {t : Toml} {sec key : String} {α : Type} {mean : Text → Option α} {read : TomlVal → Option α}
  {ok ok' : α → Prop}

/-- The last value is the one that is read. -/
theorem Reads.last (ht : Reads content t) {text : Text} {x : α} (hlast : text ∈ (given content sec key).getLast?)
    (hread : (valueOf text).bind read = some x) : (t.get (some sec) key).bind read = some x := by
  obtain ⟨v, hv, hx⟩ := Option.bind_eq_some_iff.mp hread
  obtain ⟨front, hfront⟩ := List.getLast?_eq_some_iff.mp hlast
  have hget : t.get (some sec) key = some v := by
    rw [ht.get, hfront, List.filterMap_append, List.filterMap_cons_some hv, List.filterMap_nil, List.getLast?_concat]
  rw [hget, Option.bind_some, hx]

theorem Reads.lastRegular (ht : Reads content t) {text : Text} (hlast : text ∈ (given content sec key).getLast?) :
    RegularValue text := ht.regular sec key text (List.mem_of_getLast? hlast)

theorem Reads.isGiven (ht : Reads content t) {x : α} (h : (t.get (some sec) key).bind read = some x) :
    IsGiven content sec key := by
  intro hnil
  rw [ht.get, hnil] at h
  cases h

/-- What `load` reads of a key that is given and passes a check. -/
theorem Given.get (ht : Reads content t) (hf : ReadAs mean read) (hg : Given content sec key mean ok)
    (h : IsGiven content sec key) : ∃ x, (t.get (some sec) key).bind read = some x ∧ ok x := by
  have hlast := List.getLast?_eq_some_getLast h
  obtain ⟨x, hx, hok⟩ := hg _ hlast
  exact ⟨x, ht.last hlast (hf _ (ht.lastRegular hlast) x hx), hok⟩

theorem Given.mono (ht : Reads content t) (hf : ReadAs mean read) (hg : Given content sec key mean ok)
    (h : ∀ x, (t.get (some sec) key).bind read = some x → ok x → ok' x) : Given content sec key mean ok' := by
  intro text hlast
  obtain ⟨x, hx, hok⟩ := hg text hlast
  exact ⟨x, hx, h x (ht.last hlast (hf _ (ht.lastRegular hlast) x hx)) hok⟩

/-- Two checks of a key are the same when they agree on the value that is read. -/
theorem given_congr (ht : Reads content t) (hf : ReadAs mean read)
    (h : ∀ x, (t.get (some sec) key).bind read = some x → (ok x ↔ ok' x)) :
    Given content sec key mean ok ↔ Given content sec key mean ok' :=
  ⟨fun hg => hg.mono ht hf fun x hx => (h x hx).mp, fun hg => hg.mono ht hf fun x hx => (h x hx).mpr⟩

end

/-! Single settings. -/

/-! What is left of a number in a setting's width. -/

theorem toNat_ofInt16 (n : Int) : ((UInt16.ofInt n).toNat : Int) = n % 2 ^ 16 := by
  rw [UInt16.ofInt, UInt16.toNat_ofNat_of_lt' (by show _ < 65536; omega)]
  omega

theorem toNat_ofInt32 (n : Int) : ((UInt32.ofInt n).toNat : Int) = n % 2 ^ 32 := by
  rw [UInt32.ofInt, UInt32.toNat_ofNat_of_lt' (by show _ < 4294967296; omega)]
  omega

theorem toNat_ofInt64 (n : Int) : ((UInt64.ofInt n).toNat : Int) = n % 2 ^ 64 := by
  rw [UInt64.ofInt, UInt64.toNat_ofNat_of_lt' (by show _ < 18446744073709551616; omega)]
  omega

theorem emod_eq_iff (n : Int) (bits : Nat) : n % 2 ^ bits = n ↔ 0 ≤ n ∧ n < 2 ^ bits := by
  have hpos : (0 : Int) < 2 ^ bits := by positivity
  exact ⟨fun h => h ▸ ⟨Int.emod_nonneg n hpos.ne', Int.emod_lt_of_pos n hpos⟩, fun h => Int.emod_eq_of_lt h.1 h.2⟩

section
variable {content : Text} {t : Toml} {nets : List Network}

theorem textKeys_loaded : ∀ k ∈ textKeys, ∀ s, t.str (some k.sec) k.name = some s →
    k.field (loadSettings t nets) = s := by
  simp only [textKeys, List.forall_mem_cons]
  refine ⟨fun s h => ?_, fun s h => ?_, List.forall_mem_nil _⟩
  all_goals exact congrArg (Option.getD · _) h

theorem flagKeys_loaded : ∀ k ∈ flagKeys, ∀ b, t.bool (some k.sec) k.name = some b →
    k.field (loadSettings t nets) = b := by
  simp only [flagKeys, List.forall_mem_cons]
  refine ⟨fun b h => ?_, fun b h => ?_, fun b h => ?_, fun b h => ?_, fun b h => ?_, List.forall_mem_nil _⟩
  all_goals exact congrArg (Option.getD · _) h

/-- A number is cast to the width of its setting. -/
theorem numberKeys_loaded : ∀ k ∈ numberKeys, ∀ n, t.int (some k.sec) k.name = some n →
    ((k.field (loadSettings t nets) : Int) = n ↔ 0 ≤ n ∧ n < 2 ^ k.bits) := by
  simp only [numberKeys, List.forall_mem_cons]
  refine ⟨fun n h => ?_, fun n h => ?_, fun n h => ?_, fun n h => ?_, fun n h => ?_, fun n h => ?_, fun n h => ?_,
    List.forall_mem_nil _⟩
  all_goals simp only [loadSettings, h, Option.elim_some, toNat_ofInt16, toNat_ofInt32, toNat_ofInt64, emod_eq_iff]

/-! Listeners. -/

theorem complete_map {β : Type} {sec : String} {ks : List (String × β)} : Complete content sec (ks.map Prod.fst) ↔
    ((∃ k ∈ ks, IsGiven content sec k.1) → ∀ k ∈ ks, IsGiven content sec k.1) := by
  rw [Complete, List.forall_mem_map]
  simp only [List.mem_map, exists_exists_and_eq_and]

theorem str_of_loadListener {sec : String} {d : TlsListenerConfig} (h : loadListener t sec = some d) :
    ∀ k ∈ listenerKeys, t.str (some sec) k.1 = some (k.2 d) := by
  obtain ⟨bind, hbind, h⟩ := Option.bind_eq_some_iff.mp h
  obtain ⟨cert, hcert, h⟩ := Option.bind_eq_some_iff.mp h
  obtain ⟨key, hkey, rfl⟩ := Option.map_eq_some_iff.mp h
  simp only [listenerKeys, List.forall_mem_cons]
  exact ⟨hbind, hcert, hkey, List.forall_mem_nil _⟩

theorem exists_loadListener {sec : String} (h : ∀ k ∈ listenerKeys, ∃ s, t.str (some sec) k.1 = some s) :
    ∃ d, loadListener t sec = some d := by
  simp only [listenerKeys, List.forall_mem_cons] at h
  obtain ⟨⟨bind, hbind⟩, ⟨cert, hcert⟩, ⟨key, hkey⟩, -⟩ := h
  exact ⟨⟨bind, cert, key⟩, by simp only [loadListener, hbind, hcert, hkey, Option.bind_some, Option.map_some]⟩

/-- A listener's keys are taken over when all of them are there. -/
theorem listener_iff (ht : Reads content t) (sec : String) :
    (∀ k ∈ listenerKeys, Given content sec k.1 textIn fun s => ∃ d ∈ loadListener t sec, k.2 d = s) ↔
    (∀ k ∈ listenerKeys, Given content sec k.1 textIn fun _ => True) ∧
      Complete content sec (listenerKeys.map Prod.fst) := by
  rw [complete_map]
  constructor
  · intro h
    refine ⟨fun k hk => (h k hk).mono ht textIn_readAs fun _ _ _ => trivial, fun hany => ?_⟩
    obtain ⟨k, hk, hgiven⟩ := hany
    obtain ⟨s, -, d, hd, -⟩ := (h k hk).get ht textIn_readAs hgiven
    exact fun k' hk' => ht.isGiven (str_of_loadListener hd k' hk')
  · intro h k hk
    refine (h.1 k hk).mono ht textIn_readAs fun s hs _ => ?_
    have hall := h.2 ⟨k, hk, ht.isGiven hs⟩
    obtain ⟨d, hd⟩ := @exists_loadListener t sec fun k' hk' => by
      obtain ⟨s', hs', -⟩ := (h.1 k' hk').get ht textIn_readAs (hall k' hk')
      exact ⟨s', hs'⟩
    exact ⟨d, hd, Option.some.inj ((str_of_loadListener hd k hk).symm.trans hs)⟩

/-! The TSIG key. -/

theorem str_of_loadSecret {src : TsigSecretSource} (h : loadSecret t = some src) :
    ∃ k ∈ secretKeys, ∃ s, t.str (some "tsig") k.1 = some s ∧ src = k.2 s := by
  simp only [secretKeys, List.exists_mem_cons_iff]
  rcases Option.or_eq_some_iff.mp h with h | ⟨-, h⟩
  · obtain ⟨s, hs, rfl⟩ := Option.map_eq_some_iff.mp h
    exact .inl ⟨s, hs, rfl⟩
  · rcases Option.or_eq_some_iff.mp h with h | ⟨-, h⟩
    · obtain ⟨s, hs, rfl⟩ := Option.map_eq_some_iff.mp h
      exact .inr (.inl ⟨s, hs, rfl⟩)
    · obtain ⟨s, hs, rfl⟩ := Option.map_eq_some_iff.mp h
      exact .inr (.inr (.inl ⟨s, hs, rfl⟩))

theorem str_of_loadTsigKeys {key : TsigKeySource} (h : key ∈ loadTsigKeys t) :
    (∀ k ∈ nameKeys, t.str (some "tsig") k.1 = some (k.2 key)) ∧
      ∃ k ∈ secretKeys, ∃ s, t.str (some "tsig") k.1 = some s ∧ key.secretSource = k.2 s := by
  obtain ⟨name, hname, h⟩ := Option.bind_eq_some_iff.mp (Option.mem_toList.mp h)
  obtain ⟨algorithm, halgorithm, h⟩ := Option.bind_eq_some_iff.mp h
  obtain ⟨src, hsrc, rfl⟩ := Option.map_eq_some_iff.mp h
  simp only [nameKeys, List.forall_mem_cons]
  exact ⟨⟨hname, halgorithm, List.forall_mem_nil _⟩, str_of_loadSecret hsrc⟩

theorem exists_loadTsigKeys (hnames : ∀ k ∈ nameKeys, ∃ s, t.str (some "tsig") k.1 = some s)
    (hsecret : ∃ k ∈ secretKeys, ∃ s, t.str (some "tsig") k.1 = some s) : ∃ key, key ∈ loadTsigKeys t := by
  obtain ⟨src, hsrc⟩ : ∃ src, loadSecret t = some src := by
    rw [← Option.isSome_iff_exists, loadSecret, Option.isSome_or, Option.isSome_or, Option.isSome_map,
      Option.isSome_map, Option.isSome_map]
    simp only [secretKeys, List.exists_mem_cons_iff] at hsecret
    rcases hsecret with ⟨s, hs⟩ | ⟨s, hs⟩ | ⟨s, hs⟩ | hnil
    · simp [hs]
    · simp [hs]
    · simp [hs]
    · simp at hnil
  simp only [nameKeys, List.forall_mem_cons] at hnames
  obtain ⟨⟨name, hname⟩, ⟨algorithm, halgorithm⟩, -⟩ := hnames
  refine ⟨{ name := name, algorithm := algorithm, secretSource := src }, ?_⟩
  simp only [loadTsigKeys, hname, halgorithm, hsrc, Option.bind_some, Option.map_some, Option.toList_some,
    List.mem_singleton]

/-- The sources of a secret are told apart by their keys. -/
theorem secretKeys_inj : ∀ k ∈ secretKeys, ∀ k' ∈ secretKeys, (k'.1 = k.1 → k' = k) ∧
    ∀ s s', k.2 s = k'.2 s' → k'.1 = k.1 := by
  simp only [secretKeys, List.forall_mem_cons]
  simp

/-- The keys of a TSIG key are taken over when the name, the algorithm and one secret are there. -/
theorem tsig_iff (ht : Reads content t) :
    ((∀ k ∈ nameKeys, Given content "tsig" k.1 textIn fun s => ∃ key ∈ loadTsigKeys t, k.2 key = s) ∧
      ∀ k ∈ secretKeys, Given content "tsig" k.1 textIn fun s => ∃ key ∈ loadTsigKeys t, key.secretSource = k.2 s) ↔
    (∀ k ∈ nameKeys, Given content "tsig" k.1 textIn fun _ => ∃ s ∈ secretKeys, IsGiven content "tsig" s.1) ∧
      Complete content "tsig" (nameKeys.map Prod.fst) ∧
      ∀ k ∈ secretKeys, Given content "tsig" k.1 textIn fun _ =>
        (∀ n ∈ nameKeys, IsGiven content "tsig" n.1) ∧ ∀ s ∈ secretKeys, IsGiven content "tsig" s.1 → s.1 = k.1 := by
  rw [complete_map]
  constructor
  · intro h
    obtain ⟨hnames, hsecrets⟩ := h
    refine ⟨fun k hk => (hnames k hk).mono ht textIn_readAs fun s _ hkey => ?_, fun hany => ?_, fun k hk =>
      (hsecrets k hk).mono ht textIn_readAs fun s _ hkey => ⟨fun n hn => ?_, fun k' hk' hgiven => ?_⟩⟩
    · obtain ⟨key, hkey, -⟩ := hkey
      obtain ⟨-, k', hk', s', hs', -⟩ := str_of_loadTsigKeys hkey
      exact ⟨k', hk', ht.isGiven hs'⟩
    · obtain ⟨k, hk, hgiven⟩ := hany
      obtain ⟨s, -, key, hkey, -⟩ := (hnames k hk).get ht textIn_readAs hgiven
      exact fun n hn => ht.isGiven ((str_of_loadTsigKeys hkey).1 n hn)
    · obtain ⟨key, hkey, -⟩ := hkey
      exact ht.isGiven ((str_of_loadTsigKeys hkey).1 n hn)
    · -- there is one key, and it has one source
      obtain ⟨key, hkey, hsource⟩ := hkey
      obtain ⟨s', -, key', hkey', hsource'⟩ := (hsecrets k' hk').get ht textIn_readAs hgiven
      obtain rfl : key = key' := Option.some.inj ((Option.mem_toList.mp hkey).symm.trans (Option.mem_toList.mp hkey'))
      exact (secretKeys_inj k hk k' hk').2 s s' (hsource.symm.trans hsource')
  · intro h
    obtain ⟨hnames, hcomplete, hsecrets⟩ := h
    -- with the names and a secret given, the key is there
    have hexists : (∀ n ∈ nameKeys, IsGiven content "tsig" n.1) → ∀ k ∈ secretKeys, IsGiven content "tsig" k.1 →
        ∃ key, key ∈ loadTsigKeys t := by
      intro hgiven k hk hsecret
      refine exists_loadTsigKeys (fun n hn => ?_) ⟨k, hk, ?_⟩
      · obtain ⟨s, hs, -⟩ := (hnames n hn).get ht textIn_readAs (hgiven n hn)
        exact ⟨s, hs⟩
      · obtain ⟨s, hs, -⟩ := (hsecrets k hk).get ht textIn_readAs hsecret
        exact ⟨s, hs⟩
    refine ⟨fun k hk => (hnames k hk).mono ht textIn_readAs fun s hs hsecret => ?_, fun k hk =>
      (hsecrets k hk).mono ht textIn_readAs fun s hs honly => ?_⟩
    · obtain ⟨k', hk', hgiven⟩ := hsecret
      obtain ⟨key, hkey⟩ := hexists (hcomplete ⟨k, hk, ht.isGiven hs⟩) k' hk' hgiven
      exact ⟨key, hkey, Option.some.inj (((str_of_loadTsigKeys hkey).1 k hk).symm.trans hs)⟩
    · obtain ⟨key, hkey⟩ := hexists honly.1 k hk (ht.isGiven hs)
      obtain ⟨-, k', hk', s', hs', hsource⟩ := str_of_loadTsigKeys hkey
      obtain rfl := (secretKeys_inj k hk k' hk').1 (honly.2 k' hk' (ht.isGiven hs'))
      obtain rfl := Option.some.inj (hs'.symm.trans hs)
      exact ⟨key, hkey, hsource⟩

/-! The rate limiter. -/

theorem exists_loadRateLimit (h : ∃ k ∈ rateKeys, ∃ n, t.int (some "ratelimit") k.1 = some n) :
    ∃ r, loadRateLimit t = some r := by
  simp only [rateKeys, List.exists_mem_cons_iff] at h
  rcases h with ⟨n, hn⟩ | ⟨n, hn⟩ | hnil
  · exact ⟨_, if_pos (.inl (by rw [hn]; rfl))⟩
  · exact ⟨_, if_pos (.inr (by rw [hn]; rfl))⟩
  · simp at hnil

/-- The limiter's settings: a negative rate counts as 0, and no room for sources as room for one. -/
theorem loadRateLimit_spec {r : RateLimitConfig} (h : loadRateLimit t = some r) :
    (∃ k ∈ rateKeys, ∃ n, t.int (some "ratelimit") k.1 = some n) ∧
    (∀ k ∈ rateKeys, ∀ n, t.int (some "ratelimit") k.1 = some n → ((k.2 r : Int) = n ↔ 0 ≤ n ∧ n < 2 ^ 32)) ∧
    (∀ b, t.bool (some "ratelimit") "per_ip" = some b → r.perIp = b) ∧
    ∀ n, t.int (some "ratelimit") "max_tracked_sources" = some n →
      ((r.maxTrackedSources.toNat : Int) = n ↔ 1 ≤ n ∧ n < 2 ^ 64) := by
  have hrate : ∀ n : Int, ((UInt32.ofInt (max n 0)).toNat : Int) = n ↔ 0 ≤ n ∧ n < 2 ^ 32 := by
    intro n
    rw [toNat_ofInt32]
    omega
  have htracked : ∀ n : Int, ((UInt64.ofInt (max n 1)).toNat : Int) = n ↔ 1 ≤ n ∧ n < 2 ^ 64 := by
    intro n
    rw [toNat_ofInt64]
    omega
  unfold loadRateLimit at h
  dsimp only at h
  split at h
  · next hsome =>
    cases h
    simp only [rateKeys, List.forall_mem_cons, List.exists_mem_cons_iff]
    refine ⟨?_, ⟨fun n hn => ?_, fun n hn => ?_, List.forall_mem_nil _⟩, fun b hb => ?_, fun n hn => ?_⟩
    · rcases hsome with hsome | hsome
      · exact .inl (Option.isSome_iff_exists.mp hsome)
      · exact .inr (.inl (Option.isSome_iff_exists.mp hsome))
    · rw [hn]
      exact hrate n
    · rw [hn]
      exact hrate n
    · rw [hb]
      rfl
    · rw [hn]
      exact htracked n
  · cases h

/-- The limiter's keys are taken over within their widths, and beside a rate. -/
theorem rateLimit_iff (ht : Reads content t) :
    ((∀ k ∈ rateKeys, Given content "ratelimit" k.1 numberIn fun n => ∃ r ∈ loadRateLimit t, (k.2 r : Int) = n) ∧
      (Given content "ratelimit" "per_ip" flagIn fun b => ∃ r ∈ loadRateLimit t, r.perIp = b) ∧
      Given content "ratelimit" "max_tracked_sources" numberIn fun n =>
        ∃ r ∈ loadRateLimit t, (r.maxTrackedSources.toNat : Int) = n) ↔
    (∀ k ∈ rateKeys, Given content "ratelimit" k.1 numberIn fun n => 0 ≤ n ∧ n < 2 ^ 32) ∧
      (Given content "ratelimit" "per_ip" flagIn fun _ => Limited content) ∧
      Given content "ratelimit" "max_tracked_sources" numberIn fun n => Limited content ∧ 1 ≤ n ∧ n < 2 ^ 64 := by
  have hrates : (∀ k ∈ rateKeys, Given content "ratelimit" k.1 numberIn fun n =>
        ∃ r ∈ loadRateLimit t, (k.2 r : Int) = n) ↔
      ∀ k ∈ rateKeys, Given content "ratelimit" k.1 numberIn fun n => 0 ≤ n ∧ n < 2 ^ 32 := by
    refine forall₂_congr fun k hk => given_congr ht numberIn_readAs fun n hn => ?_
    obtain ⟨r, hr⟩ := @exists_loadRateLimit t ⟨k, hk, n, hn⟩
    rw [← (loadRateLimit_spec hr).2.1 k hk n hn]
    simp [hr]
  rw [hrates]
  refine and_congr_right fun htyped => ?_
  -- typed rates switch the limiter on
  have hlimited : Limited content ↔ ∃ r, loadRateLimit t = some r := by
    constructor
    · intro h
      obtain ⟨k, hk, hgiven⟩ := h
      obtain ⟨n, hn, -⟩ := (htyped k hk).get ht numberIn_readAs hgiven
      exact exists_loadRateLimit ⟨k, hk, n, hn⟩
    · intro h
      obtain ⟨r, hr⟩ := h
      obtain ⟨k, hk, n, hn⟩ := (loadRateLimit_spec hr).1
      exact ⟨k, hk, ht.isGiven hn⟩
  refine and_congr (given_congr ht flagIn_readAs fun b hb => ?_) (given_congr ht numberIn_readAs fun n hn => ?_)
  · rw [hlimited]
    refine exists_congr fun r => ⟨fun h => h.1, fun hr => ⟨hr, (loadRateLimit_spec hr).2.2.1 b hb⟩⟩
  · rw [hlimited, exists_and_right.symm]
    exact exists_congr fun r => and_congr_right fun hr => (loadRateLimit_spec hr).2.2.2 n hn

end

/-! Networks. -/

theorem ipAddr_comma {s : Text} (h : ',' ∈ s) : IpAddr.parse s = none := by
  rw [IpAddr.parse]
  cases hread : readIpv4 s with
  | none => rw [Option.elim_none, parseWith_avoids (.readIpv6 noAddress_comma) h, Option.map_none]
  | some v4 =>
    obtain ⟨front, hs, hfront⟩ := Avoids.readIpv4 noAddress_comma s v4.1 v4.2 hread
    rw [Option.elim_some, if_neg]
    intro hnil
    rw [hnil, List.append_nil] at hs
    exact hfront (hs ▸ h)

theorem mem_trim {c : Char} (hc : isWhitespace c = false) {s : Text} (h : c ∈ s) : c ∈ trim s := by
  obtain ⟨lead, trail, heq, hlead, htrail⟩ := exists_trim s
  rw [heq, List.mem_append, List.mem_append] at h
  rcases h with h | h | h
  · rw [hlead c h] at hc
    cases hc
  · exact h
  · rw [htrail c h] at hc
    cases hc

/-- No network is spelled with a comma, or by nothing. -/
theorem network_plain {item : Text} (h : Network.parse item ≠ none) : item ≠ [] ∧ ',' ∉ item := by
  refine ⟨?_, fun hcomma => h ?_⟩
  · rintro rfl
    exact h (by decide)
  · rw [← List.takeWhile_append_dropWhile (p := (· != '/')) (l := item), List.mem_append] at hcomma
    rw [Network.parse]
    rcases hcomma with hfront | hback
    · rw [ipAddr_comma (mem_trim (by decide) hfront), Option.bind_none]
    · -- behind the slash stands the length of the prefix
      cases hdrop : item.dropWhile (· != '/') with
      | nil =>
        rw [hdrop] at hback
        cases hback
      | cons c rest =>
        have hc : c = '/' := by
          have := List.head?_dropWhile_not (· != '/') item
          rw [hdrop] at this
          simpa using this
        rw [hdrop, hc] at hback
        have hrest : ',' ∈ trim rest := mem_trim (by decide) (by simpa using hback)
        have hslash : '/' ∈ item := (List.dropWhile_suffix _).subset (by rw [hdrop, hc]; exact List.mem_cons_self)
        have hnumber : parseU8 (trim rest) = none := by
          rw [parseU8, parseUnsigned_eq, digitsIn, if_neg]
          · rfl
          · intro hgood
            have hdigits : ',' ∈ unsignedDigits (trim rest) := by
              rcases unsignedDigits_eq (trim rest) with heq | heq
              · exact heq ▸ hrest
              · rw [heq] at hrest
                simpa using hrest
            exact absurd (List.all_eq_true.mp hgood.2 ',' hdigits) (by decide)
        simp only [if_pos hslash, List.drop_one, List.tail_cons, hnumber]
        cases IpAddr.parse (trim (item.takeWhile (· != '/'))) <;> rfl

theorem mapM_loadNetwork_ok {items : List Text} (h : ∀ entry ∈ items, Network.parse entry ≠ none) :
    ∃ nets, items.mapM loadNetwork = .ok nets ∧ nets.map some = items.map Network.parse := by
  induction items with
  | nil => exact ⟨[], rfl, rfl⟩
  | cons entry items ih =>
    obtain ⟨hentry, hrest⟩ := List.forall_mem_cons.mp h
    obtain ⟨net, hnet⟩ := Option.ne_none_iff_exists'.mp hentry
    obtain ⟨nets, hnets, hmap⟩ := ih hrest
    refine ⟨net :: nets, ?_, by rw [List.map_cons, List.map_cons, hmap, hnet]⟩
    rw [List.mapM_cons, loadNetwork, hnet, hnets]
    rfl

theorem mapM_loadNetwork_error {items : List Text} (h : ∃ entry ∈ items, Network.parse entry = none) :
    ∃ message, items.mapM loadNetwork = .error (.invalidData message) := by
  induction items with
  | nil => simp at h
  | cons entry items ih =>
    rw [List.mapM_cons, loadNetwork]
    cases hnet : Network.parse entry with
    | none => exact ⟨_, rfl⟩
    | some net =>
      rw [List.exists_mem_cons_iff] at h
      obtain ⟨message, herror⟩ := ih (h.resolve_left (by rw [hnet]; exact Option.some_ne_none net))
      exact ⟨message, by rw [herror]; rfl⟩

section
variable {content : Text} {t : Toml}

theorem recursionRefused_iff (ht : Reads content t) : RecursionRefused content ↔
    ∃ entry ∈ t.array (some "server") "allow_recursion", Network.parse entry = none := by
  rw [RecursionRefused, Toml.array, ← ht.get]
  cases t.get (some "server") "allow_recursion" with
  | none => simp
  | some v =>
    rw [Option.bind_some]
    cases hitems : Toml.arrayOf v <;> simp [hitems]

theorem loadNetworks_ok (h : ∀ entry ∈ t.array (some "server") "allow_recursion", Network.parse entry ≠ none) :
    ∃ nets, loadNetworks t = .ok nets ∧ ∀ items,
      (t.get (some "server") "allow_recursion").bind Toml.arrayOf = some items →
        nets.map some = items.map Network.parse := by
  unfold loadNetworks
  split
  · obtain ⟨nets, hnets, hmap⟩ := mapM_loadNetwork_ok h
    refine ⟨nets, hnets, fun items hitems => ?_⟩
    rwa [Toml.array, hitems] at hmap
  · next hnone =>
    refine ⟨_, rfl, fun items hitems => ?_⟩
    rw [Option.not_isSome_iff_eq_none] at hnone
    rw [hnone] at hitems
    cases hitems

theorem loadNetworks_error (h : ∃ entry ∈ t.array (some "server") "allow_recursion", Network.parse entry = none) :
    ∃ message, loadNetworks t = .error (.invalidData message) := by
  obtain ⟨message, herror⟩ := mapM_loadNetwork_error h
  refine ⟨message, ?_⟩
  rw [loadNetworks, if_pos, herror]
  cases hget : t.get (some "server") "allow_recursion" with
  | some v => rfl
  | none =>
    obtain ⟨entry, hentry, -⟩ := h
    rw [Toml.array, hget] at hentry
    cases hentry

/-! The whole file. -/

/-- The items that are read of a list are its own exactly when it is plain. -/
theorem Reads.lastList (ht : Reads content t) {sec key : String} {text : Text} {l : Listing}
    (hlast : text ∈ (given content sec key).getLast?) (hl : l ∈ listIn text) :
    ∃ items, (t.get (some sec) key).bind Toml.arrayOf = some items ∧ (items = l.items ↔ l.Plain) := by
  obtain ⟨items, hitems, hplain⟩ := valueOf_listIn (ht.lastRegular hlast) hl
  exact ⟨items, ht.last hlast hitems, hplain⟩

/-- What was loaded is what the file says exactly when the file is well typed. -/
theorem faithful_iff (ht : Reads content t) {nets : List Network} (hnets : ∀ items,
    (t.get (some "server") "allow_recursion").bind Toml.arrayOf = some items →
      nets.map some = items.map Network.parse) :
    Faithful content (loadSettings t nets) ↔ WellTyped content := by
  have htexts : (∀ k ∈ textKeys, Given content k.sec k.name textIn fun s => k.field (loadSettings t nets) = s) ↔
      ∀ k ∈ textKeys, Given content k.sec k.name textIn fun _ => True :=
    forall₂_congr fun k hk => given_congr ht textIn_readAs fun s hs => iff_true_intro (textKeys_loaded k hk s hs)
  have hflags : (∀ k ∈ flagKeys, Given content k.sec k.name flagIn fun b => k.field (loadSettings t nets) = b) ↔
      ∀ k ∈ flagKeys, Given content k.sec k.name flagIn fun _ => True :=
    forall₂_congr fun k hk => given_congr ht flagIn_readAs fun b hb => iff_true_intro (flagKeys_loaded k hk b hb)
  have hnumbers : (∀ k ∈ numberKeys, Given content k.sec k.name numberIn fun n =>
        (k.field (loadSettings t nets) : Int) = n) ↔
      ∀ k ∈ numberKeys, Given content k.sec k.name numberIn fun n => 0 ≤ n ∧ n < 2 ^ k.bits :=
    forall₂_congr fun k hk => given_congr ht numberIn_readAs fun n hn => numberKeys_loaded k hk n hn
  have hnetworks : (Given content "server" "allow_recursion" listIn fun l =>
        nets.map some = l.items.map Network.parse) ↔
      Given content "server" "allow_recursion" listIn Listing.Plain := by
    refine forall₂_congr fun text hlast => exists_congr fun l => and_congr_right fun hl =>
      ⟨fun heq => ?_, fun hplain => ?_⟩
    · cases l with
      | one s => trivial
      | many items =>
        -- each item is one of the networks that were loaded
        intro item hitem
        refine network_plain fun hnone => ?_
        have hmem : none ∈ nets.map some := heq ▸ hnone ▸ List.mem_map_of_mem hitem
        simp at hmem
    · obtain ⟨items, hitems, hsame⟩ := ht.lastList hlast hl
      rw [hnets items hitems, hsame.mpr hplain]
  have hfiles : (Given content "zones" "files" listIn fun l => t.array (some "zones") "files" = l.items) ↔
      Given content "zones" "files" listIn Listing.Plain := by
    refine forall₂_congr fun text hlast => exists_congr fun l => and_congr_right fun hl => ?_
    obtain ⟨items, hitems, hsame⟩ := ht.lastList hlast hl
    rw [Toml.array, hitems, Option.getD_some]
    exact hsame
  have hlisteners : (∀ l ∈ listeners, ∀ k ∈ listenerKeys, Given content l.1 k.1 textIn fun s =>
        ∃ d ∈ l.2 (loadSettings t nets), k.2 d = s) ↔
      ∀ l ∈ listeners, (∀ k ∈ listenerKeys, Given content l.1 k.1 textIn fun _ => True) ∧
        Complete content l.1 (listenerKeys.map Prod.fst) := by
    refine forall₂_congr fun l hl => ?_
    rw [← listener_iff ht, show l.2 (loadSettings t nets) = loadListener t l.1 from ?_]
    simp only [listeners, List.mem_cons, List.not_mem_nil, or_false] at hl
    rcases hl with rfl | rfl <;> rfl
  -- the groups of keys go together: what one of them needs stands under another
  constructor
  · intro h
    obtain ⟨hnames, hcomplete, hsecrets⟩ := (tsig_iff ht).mp ⟨h.tsigNames, h.secrets⟩
    obtain ⟨hrates, hperIp, htracked⟩ := (rateLimit_iff ht).mp ⟨h.rates, h.perIp, h.tracked⟩
    exact ⟨htexts.mp h.texts, hflags.mp h.flags, hnumbers.mp h.numbers, hnetworks.mp h.networks, hfiles.mp h.zoneFiles,
      hlisteners.mp h.listener, hnames, hcomplete, hsecrets, hrates, hperIp, htracked⟩
  · intro h
    obtain ⟨hnames, hsecrets⟩ := (tsig_iff ht).mpr ⟨h.tsigNames, h.tsigComplete, h.secrets⟩
    obtain ⟨hrates, hperIp, htracked⟩ := (rateLimit_iff ht).mpr ⟨h.rates, h.perIp, h.tracked⟩
    exact ⟨htexts.mpr h.texts, hflags.mpr h.flags, hnumbers.mpr h.numbers, hnetworks.mpr h.networks,
      hfiles.mpr h.zoneFiles, hlisteners.mpr h.listener, hnames, hsecrets, hrates, hperIp, htracked⟩

end

/-- **When loading a regular configuration fails closed**: exactly when an entry of `allow_recursion` is refused or every
    key is well typed. -/
theorem loadConfig_failsClosed_iff (content : Text) (hregular : RegularText content) :
    FailsClosed content ↔ RecursionRefused content ∨ WellTyped content := by
  obtain ⟨hparse, hvalues⟩ := parseStr_regular hregular
  set t := (configEntries content).foldl enter Toml.empty with htdef
  have ht : Reads content t := by
    refine ⟨fun sec key => get_foldl_enter (configEntries content) sec key, fun sec key text htext => ?_⟩
    obtain ⟨e, he, rfl⟩ := List.mem_map.mp htext
    exact hvalues e (List.mem_filter.mp he).1
  have hload : loadConfig content = (loadNetworks t).map (loadSettings t) := by
    rw [loadConfig, hparse]
    show (loadNetworks t >>= fun nets => pure (loadSettings t nets)) = _
    cases loadNetworks t <;> rfl
  by_cases hrefused : RecursionRefused content
  · -- the load fails, whatever the other keys say
    obtain ⟨message, herror⟩ := loadNetworks_error ((recursionRefused_iff ht).mp hrefused)
    rw [herror] at hload
    refine iff_of_true ⟨?_, fun c hc => ?_⟩ (.inl hrefused)
    · rw [hload]
      exact fun h => by cases h
    · rw [hload] at hc
      cases hc
  · -- everything else is loaded
    have hall : ∀ entry ∈ t.array (some "server") "allow_recursion", Network.parse entry ≠ none := by
      rw [recursionRefused_iff ht] at hrefused
      exact fun entry hentry hnone => hrefused ⟨entry, hentry, hnone⟩
    obtain ⟨nets, hnets, hsame⟩ := loadNetworks_ok hall
    rw [hnets] at hload
    have hclosed : FailsClosed content ↔ Faithful content (loadSettings t nets) := by
      rw [FailsClosed, hload]
      constructor
      · exact fun h => h.2 _ rfl
      · intro h
        refine ⟨(fun h => by cases h), fun c hc => ?_⟩
        cases hc
        exact h
    rw [hclosed, faithful_iff ht hsame]
    exact ⟨.inr, fun h => h.resolve_left hrefused⟩

/-- A configuration with a group of keys, a list and a comment with quotes in it. -/
def transferConfig : Text :=
  ("[server]\nport = 5000     # or \"853\"\n" ++ "allow_recursion = [\"127.0.0.0/8\", \"::1/128\", ]\n\n" ++
    "[tsig]\nname = transfer-key.\nalgorithm = \"hmac-sha256.\"\nsecret_file = \"tsig#1.b64\"\n").toList

theorem transferConfig_entries : configEntries transferConfig =
    [⟨some "server".toList, "port".toList, "5000".toList⟩,
      ⟨some "server".toList, "allow_recursion".toList, "[\"127.0.0.0/8\", \"::1/128\", ]".toList⟩,
      ⟨some "tsig".toList, "name".toList, "transfer-key.".toList⟩,
      ⟨some "tsig".toList, "algorithm".toList, "\"hmac-sha256.\"".toList⟩,
      ⟨some "tsig".toList, "secret_file".toList, "\"tsig#1.b64\"".toList⟩] := by
  decide +kernel

/-- Every key it gives is loaded as it is written. -/
theorem transferConfig_failsClosed : FailsClosed transferConfig := by
  refine (loadConfig_failsClosed_iff transferConfig (by decide +kernel)).mpr (.inr ?_)
  constructor <;> simp only [Given, Complete, Limited, IsGiven, given, transferConfig_entries] <;> decide +kernel

/-- A port of 17 bits. -/
def widePort : Text := "[server]\nport = 70000\n".toList

/-- The server listens on the port that is left of it. -/
theorem widePort_wraps : ((loadConfig widePort).map fun c => c.port) = .ok 4464 ∧ ¬ FailsClosed widePort := by
  have hport : ((loadConfig widePort).map fun c => c.port) = .ok 4464 := by decide
  refine ⟨hport, fun h => ?_⟩
  cases hload : loadConfig widePort with
  | error e =>
    rw [hload] at hport
    cases hport
  | ok c =>
    rw [hload] at hport
    have hwritten : (given widePort "server" "port").getLast? = some "70000".toList := by decide
    obtain ⟨n, hn, heq⟩ := (h.2 c hload).numbers ⟨⟨"server", "port", (·.port.toNat)⟩, 16⟩ List.mem_cons_self _ hwritten
    have hvalue : numberIn "70000".toList = some 70000 := by decide
    obtain rfl := Option.some.inj (hvalue.symm.trans hn)
    have hwrapped : c.port = 4464 := Except.ok.inj hport
    dsimp only at heq
    rw [hwrapped] at heq
    exact absurd heq (by decide)

/- A port that is no number leaves the default, a lone quote ends the program, and of a list on several lines the first
   one is a value of its own. -/
example : ((loadConfig "[server]\nport = dns\n".toList).map fun c => c.port) = .ok 53 := by decide
example : ((loadConfig "[server]\nbind = \"\n".toList).map fun c => c.port) = .error .sliceReversed := by decide
example : ((loadConfig "[zones]\nfiles = [\n\"a\"\n]\n".toList).map fun c => c.zoneFiles) = .ok ["[".toList] ∧
    (given "[zones]\nfiles = [\n\"a\"\n]\n".toList "zones" "files").map listIn = [some (.many ["a".toList])] := by
  decide +kernel

end Ironbind
