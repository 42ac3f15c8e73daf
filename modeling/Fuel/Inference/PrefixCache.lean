import Mathlib.Data.List.MinMax
import Mathlib.Data.Set.Finite.List
import Fuel.Lib.AssocMap
import Fuel.Lib.Machine
import Fuel.Lib.Recency

/-!
# The prefix cache

`PrefixCache` of `fuel-inference/src/prefix_cache.rs`: KV states of token
prefixes, found again by a 64-bit hash of the tokens, with the
least-recently-used entry making room. The hash function is a parameter; the
access counter is a `u64`, checked or not.
-/

namespace Fuel.Inference

open Fuel Method Recency List

/-- `LayerKvState`: the key and value tensors of one layer. -/
abbrev LayerKvState (T : Type) : Type := T × T

/-- `CacheEntry`. -/
structure CacheEntry (T : Type) where
  kvStates : List (LayerKvState T)
  seqLen : Nat
  lastAccess : Nat

/-- `PrefixCache`. -/
structure PrefixCache (T : Type) where
  entries : AList (fun _ : UInt64 => CacheEntry T)
  maxEntries : Nat
  accessCounter : Nat

/-- Nothing in the cache returns a `Result`; a call can only abort. -/
abbrev CacheM (T α : Type) : Type := Method Empty (PrefixCache T) α

namespace PrefixCache

variable {T : Type}

/-- `new`. -/
def new (maxEntries : Nat) : PrefixCache T :=
  { entries := ∅, maxEntries := max maxEntries 1, accessCounter := 0 }

/-- `len`. -/
def len (cache : PrefixCache T) : Nat := cache.entries.keys.length

/-- `clear`. -/
def clear : CacheM T Unit := do
  let cache ← get
  set { cache with entries := ∅, accessCounter := 0 }

/-- `evict_lru`. -/
def evictLru : CacheM T Unit := do
  let cache ← get
  match cache.entries.entries.argmin fun e => e.2.lastAccess with
  | some e => set { cache with entries := cache.entries.erase e.1 }
  | none => pure ()

variable (build : Build) (hashTokens : List UInt32 → UInt64)

/-- `lookup`. -/
def lookup (tokens : List UInt32) : CacheM T (Option (List (LayerKvState T))) := do
  let hash := hashTokens tokens
  let cache ← get
  match cache.entries.lookup hash with
  | some entry => do
    let counter ← addUsizeIn build cache.accessCounter 1
    set { cache with
      accessCounter := counter
      entries := cache.entries.insert hash { entry with lastAccess := counter } }
    pure (some entry.kvStates)
  | none => pure none

/-- The check of `insert`: a new entry at capacity evicts another. -/
def makeRoom (hash : UInt64) : CacheM T Unit := do
  let cache ← get
  if (cache.entries.lookup hash).isNone ∧ cache.maxEntries ≤ cache.len then evictLru
  else pure ()

/-- `insert`. -/
def insert (tokens : List UInt32) (kvStates : List (LayerKvState T)) : CacheM T Unit := do
  let hash := hashTokens tokens
  makeRoom hash
  let cache ← get
  let counter ← addUsizeIn build cache.accessCounter 1
  set { cache with
    accessCounter := counter
    entries := cache.entries.insert hash ⟨kvStates, tokens.length, counter⟩ }

/-- The loop of `longest_prefix_match`, from `len` down to one token. -/
def matchDown (tokens : List UInt32) :
    Nat → CacheM T (Option (Nat × List (LayerKvState T)))
  | 0 => pure none
  | len + 1 => do
    match ← lookup build hashTokens (tokens.take (len + 1)) with
    | some kv => pure (some (len + 1, kv))
    | none => matchDown tokens len

/-- `longest_prefix_match`. -/
def longestPrefixMatch (tokens : List UInt32) :
    CacheM T (Option (Nat × List (LayerKvState T))) :=
  matchDown build hashTokens tokens tokens.length

/-! ## Without overflow checks -/

section Unchecked

variable {build hashTokens} (tokens : List UInt32)

theorem lookup_unchecked : Unchecked (lookup .debug hashTokens tokens : CacheM T _)
    (lookup .release hashTokens tokens) := by
  refine .after fun cache => ?_
  cases cache.entries.lookup (hashTokens tokens) with
  | none => exact .refl _
  | some entry => exact (Unchecked.addUsizeIn _ _).before

theorem insert_unchecked (kv : List (LayerKvState T)) :
    Unchecked (insert .debug hashTokens tokens kv) (insert .release hashTokens tokens kv) :=
  .after fun _ => .after fun _ => (Unchecked.addUsizeIn _ _).before

theorem matchDown_unchecked (n : Nat) : Unchecked (matchDown .debug hashTokens tokens n : CacheM T _)
    (matchDown .release hashTokens tokens n) := by
  induction n with
  | zero => exact .refl _
  | succ n ih =>
    refine (lookup_unchecked _).bind fun r => ?_
    cases r with
    | none => exact ih
    | some kv => exact .refl _

end Unchecked

end PrefixCache

open PrefixCache

/-! ## Histories -/

/-- A call, with what it answered. -/
inductive Record (T : Type) where
  | insert (tokens : List UInt32) (kv : List (LayerKvState T))
  | lookup (tokens : List UInt32) (answer : Option (List (LayerKvState T)))
  | longestPrefixMatch (tokens : List UInt32) (answer : Option (Nat × List (LayerKvState T)))
  | clear

variable {T : Type}

/-- The token sequence a call inserted or hit. -/
def Record.used : Record T → Option (List UInt32)
  | .insert tokens _ => some tokens
  | .lookup tokens answer => answer.map fun _ => tokens
  | .longestPrefixMatch tokens answer => answer.map fun found => tokens.take found.1
  | .clear => none

/-- What a call did, to a store whose keys are made from tokens by `key`. -/
def Record.event {K : Type} (key : List UInt32 → K) :
    Record T → Option (Event K (List (LayerKvState T)))
  | .insert tokens kv => some (.stored (key tokens) kv)
  | .lookup tokens answer => answer.map fun _ => .hit (key tokens)
  | .longestPrefixMatch tokens answer => answer.map fun found => .hit (key (tokens.take found.1))
  | .clear => some .cleared

/-- The events of a history. -/
def events {K : Type} (key : List UInt32 → K) (history : List (Record T)) :
    List (Event K (List (LayerKvState T))) :=
  history.filterMap (Record.event key)

section Histories

variable (build : Build) (hashTokens : List UInt32 → UInt64) (maxEntries : Nat)

/-- The cache a history of calls on a new cache leaves, latest call first, if
the counter does not wrap. -/
inductive History : List (Record T) → PrefixCache T → Prop
  | new : History [] (new maxEntries)
  | insert {past c c' tokens kv} : History past c →
      Fits build (insert · hashTokens tokens kv) c → insert build hashTokens tokens kv c = .ok () c' →
      History (.insert tokens kv :: past) c'
  | lookup {past c c' tokens answer} : History past c →
      Fits build (lookup · hashTokens tokens) c → lookup build hashTokens tokens c = .ok answer c' →
      History (.lookup tokens answer :: past) c'
  | longestPrefixMatch {past c c' tokens answer} : History past c →
      Fits build (longestPrefixMatch · hashTokens tokens) c →
      longestPrefixMatch build hashTokens tokens c = .ok answer c' →
      History (.longestPrefixMatch tokens answer :: past) c'
  | clear {past c c'} : History past c → clear c = .ok () c' →
      History (.clear :: past) c'

end Histories

/-! ## What the calls do to the stamped entries -/

namespace PrefixCache

/-- The entries as the stamps rank them. -/
def stamped (c : PrefixCache T) (k : UInt64) : Option (List (LayerKvState T) × Nat) :=
  (c.entries.lookup k).map fun e => (e.kvStates, e.lastAccess)

/-- The cached hashes. -/
def cachedKeys (c : PrefixCache T) : Finset UInt64 := c.entries.keys.toFinset

theorem card_cachedKeys (c : PrefixCache T) : c.cachedKeys.card = c.len :=
  toFinset_card_of_nodup c.entries.keys_nodup

variable {c : PrefixCache T} {hash : UInt64}

theorem mem_cachedKeys (k : UInt64) : k ∈ c.cachedKeys ↔ (c.stamped k).isSome := by
  rw [cachedKeys, mem_toFinset, ← AList.mem_keys, ← AList.lookup_isSome, stamped,
    Option.isSome_map]

/-- The cache with `e` under `hash`, as the latest access. -/
def put (hash : UInt64) (e : CacheEntry T) (c : PrefixCache T) : PrefixCache T :=
  { c with accessCounter := e.lastAccess, entries := c.entries.insert hash e }

theorem stamped_put (hash : UInt64) (e : CacheEntry T) (c : PrefixCache T) :
    (c.put hash e).stamped
      = Function.update c.stamped hash (some (e.kvStates, e.lastAccess)) := by
  funext k
  show ((c.entries.insert hash e).lookup k).map _ = _
  rw [AssocMap.lookup_insert_ite, Function.update_apply]
  split
  · rfl
  · rfl

theorem len_put_old {e₀ : CacheEntry T} (h : c.entries.lookup hash = some e₀) (e : CacheEntry T) :
    (c.put hash e).len = c.len := by
  have hmem : hash ∈ c.entries.keys :=
    AList.mem_keys.mp (AList.lookup_isSome.mp (by rw [h]; rfl))
  have hpos := length_pos_of_mem hmem
  show (c.entries.insert hash e).keys.length = c.entries.keys.length
  rw [AList.keys_insert, length_cons, length_erase_of_mem hmem]
  omega

theorem len_put_new (h : c.entries.lookup hash = none) (e : CacheEntry T) :
    (c.put hash e).len = c.len + 1 := by
  have hnot : hash ∉ c.entries.keys := fun hk => AList.lookup_eq_none.mp h (AList.mem_keys.mpr hk)
  show (c.entries.insert hash e).keys.length = c.entries.keys.length + 1
  rw [AList.keys_insert, length_cons, erase_of_not_mem hnot]

/-- The cache without the entry under `hash`. -/
def drop (hash : UInt64) (c : PrefixCache T) : PrefixCache T :=
  { c with entries := c.entries.erase hash }

theorem stamped_drop (hash : UInt64) (c : PrefixCache T) :
    (c.drop hash).stamped = Function.update c.stamped hash none := by
  funext k
  show ((c.entries.erase hash).lookup k).map _ = _
  rw [AssocMap.lookup_erase_ite, Function.update_apply]
  split
  · rfl
  · rfl

theorem len_drop {e : CacheEntry T} (h : c.entries.lookup hash = some e) :
    (c.drop hash).len + 1 = c.len := by
  have hmem : hash ∈ c.entries.keys :=
    AList.mem_keys.mp (AList.lookup_isSome.mp (by rw [h]; rfl))
  have hpos := length_pos_of_mem hmem
  show (c.entries.erase hash).keys.length + 1 = c.entries.keys.length
  rw [AList.keys_erase, length_erase_of_mem hmem]
  omega

/-- `evict_lru` takes out an entry no other was accessed before. -/
theorem evictLru_spec (h : 0 < c.len) : ∃ hash e, c.entries.lookup hash = some e ∧
      (∀ k e', c.entries.lookup k = some e' → e.lastAccess ≤ e'.lastAccess) ∧
      evictLru c = .ok () (c.drop hash) := by
  have hne : c.entries.entries ≠ [] := by
    intro hnil
    have : c.len = 0 := by
      show c.entries.keys.length = 0
      rw [AList.keys, hnil]
      rfl
    omega
  cases hmin : c.entries.entries.argmin fun e => e.2.lastAccess with
  | none => exact absurd (argmin_eq_none.mp hmin) hne
  | some e =>
    refine ⟨e.1, e.2, ?_, ?_, ?_⟩
    · exact AssocMap.mem_entries_iff.mpr (argmin_mem hmin)
    · intro k e' hk
      have hmem := AssocMap.mem_entries_iff.mp hk
      exact le_of_mem_argmin (f := fun e => e.2.lastAccess) hmem hmin
    · simp only [evictLru, bind_run, get_run, Outcome.andThen_ok, hmin, set_run]
      rfl

variable {hashTokens : List UInt32 → UInt64} {c : PrefixCache T} {tokens : List UInt32}

theorem lookup_of_none (h : c.entries.lookup (hashTokens tokens) = none) :
    lookup .debug hashTokens tokens c = .ok none c := by
  simp only [lookup, bind_run, get_run, Outcome.andThen_ok, h, pure_run]

theorem lookup_of_some {e : CacheEntry T} (h : c.entries.lookup (hashTokens tokens) = some e) :
    lookup .debug hashTokens tokens c =
      if c.accessCounter + 1 < 2 ^ 64 then
        .ok (some e.kvStates)
          (c.put (hashTokens tokens) { e with lastAccess := c.accessCounter + 1 })
      else .abort .addOverflow := by
  simp only [lookup, bind_run, get_run, Outcome.andThen_ok, h]
  split
  · rename_i hlt
    rw [addUsizeIn_of_lt hlt]
    rfl
  · rename_i hlt
    rw [addUsizeIn_overflow hlt]
    rfl

theorem insert_run (kv : List (LayerKvState T)) :
    insert .debug hashTokens tokens kv c = (makeRoom (hashTokens tokens) c).andThen fun _ c =>
      if c.accessCounter + 1 < 2 ^ 64 then
        .ok () (c.put (hashTokens tokens) ⟨kv, tokens.length, c.accessCounter + 1⟩)
      else .abort .addOverflow := by
  show (makeRoom (hashTokens tokens) c).andThen _ = _
  congr 1
  funext _ c
  simp only [bind_run, get_run, Outcome.andThen_ok]
  split
  · rename_i hlt
    rw [addUsizeIn_of_lt hlt]
    rfl
  · rename_i hlt
    rw [addUsizeIn_overflow hlt]
    rfl

/-- `longest_prefix_match` finds nothing, or accesses the entry of the
longest prefix that has one. -/
theorem matchDown_cases (n : Nat) :
    ((∀ m, 1 ≤ m → m ≤ n → c.entries.lookup (hashTokens (tokens.take m)) = none) ∧
      matchDown .debug hashTokens tokens n c = .ok none c) ∨
    ∃ m e, 1 ≤ m ∧ m ≤ n ∧ c.entries.lookup (hashTokens (tokens.take m)) = some e ∧
      (∀ m', m < m' → m' ≤ n → c.entries.lookup (hashTokens (tokens.take m')) = none) ∧
      matchDown .debug hashTokens tokens n c =
        if c.accessCounter + 1 < 2 ^ 64 then
          .ok (some (m, e.kvStates))
            (c.put (hashTokens (tokens.take m)) { e with lastAccess := c.accessCounter + 1 })
        else .abort .addOverflow := by
  induction n with
  | zero =>
    left
    refine ⟨?_, rfl⟩
    intro m h1 h2
    omega
  | succ n ih =>
    cases hk : c.entries.lookup (hashTokens (tokens.take (n + 1))) with
    | some e =>
      right
      refine ⟨n + 1, e, by omega, by omega, hk, ?_, ?_⟩
      · intro m' h1 h2
        omega
      · rw [matchDown, bind_run, lookup_of_some hk]
        split
        · rfl
        · rfl
    | none =>
      -- a miss changes nothing, so the shorter prefixes are tried on `c` itself
      have hrun : matchDown .debug hashTokens tokens (n + 1) c
          = matchDown .debug hashTokens tokens n c := by
        rw [matchDown, bind_run, lookup_of_none hk]
        rfl
      rw [hrun]
      rcases ih with ⟨hnone, heq⟩ | ⟨m, e, h1, h2, he, hmax, heq⟩
      · left
        refine ⟨?_, heq⟩
        intro m h1 h2
        by_cases hm : m = n + 1
        · rw [hm]
          exact hk
        · exact hnone m h1 (by omega)
      · right
        refine ⟨m, e, h1, by omega, he, ?_, heq⟩
        intro m' h3 h4
        by_cases hm : m' = n + 1
        · rw [hm]
          exact hk
        · exact hmax m' h3 (by omega)

end PrefixCache

/-! ## The cache against its history -/

section Serves

open PrefixCache

/-- The longest of the lengths `1 .. len` at which `f` has something. -/
def IsLongest {α : Type} (f : Nat → Option α) (len : Nat) : Option (Nat × α) → Prop
  | some (n, a) => 1 ≤ n ∧ n ≤ len ∧ f n = some a ∧ ∀ m, n < m → m ≤ len → f m = none
  | none => ∀ m, 1 ≤ m → m ≤ len → f m = none

variable {hashTokens : List UInt32 → UInt64} {maxEntries : Nat}
  {past : List (Record T)} {c : PrefixCache T}

/-- What every history keeps: the access counters rank the entries, and an
entry is only missing when it should be. -/
structure Faithful (hashTokens : List UInt32 → UInt64) (maxEntries : Nat)
    (past : List (Record T)) (c : PrefixCache T) : Prop where
  ranks : Ranks (events hashTokens past) c.stamped c.accessCounter
  forgets : Forgets c.maxEntries (events hashTokens past) c.stamped
  capacity : c.maxEntries = max maxEntries 1
  fits : c.len ≤ c.maxEntries
  counts : c.accessCounter = useCount (events hashTokens past)

theorem Faithful.new : Faithful hashTokens maxEntries [] (new maxEntries : PrefixCache T) where
  ranks := Ranks.of_empty []
  forgets := Forgets.of_nil _
  capacity := rfl
  fits := Nat.zero_le _
  counts := rfl

variable (h : Faithful hashTokens maxEntries past c)

include h

theorem Faithful.held_eq (k : UInt64) : held (max maxEntries 1) k (events hashTokens past)
      = (c.entries.lookup k).map CacheEntry.kvStates := by
  have hcard : c.cachedKeys.card ≤ max maxEntries 1 := by
    rw [card_cachedKeys, ← h.capacity]
    exact h.fits
  have hf := h.forgets
  rw [h.capacity] at hf
  rw [h.ranks.held_eq mem_cachedKeys hf hcard k, stamped, Option.map_map]
  rfl

/-- A hit: the entry found becomes the latest access. -/
theorem Faithful.hit {r : Record T} {k : UInt64} {e : CacheEntry T}
    (hr : r.event hashTokens = some (.hit k)) (he : c.entries.lookup k = some e) :
    Faithful hashTokens maxEntries (r :: past)
      (c.put k { e with lastAccess := c.accessCounter + 1 }) := by
  have hev : events hashTokens (r :: past) = .hit k :: events hashTokens past := by
    rw [events, filterMap_cons, hr]
    rfl
  have huse : Event.Uses k (.hit k : Event UInt64 (List (LayerKvState T))) := Or.inl rfl
  have hstored : lastStored k (.hit k :: events hashTokens past) = some e.kvStates :=
    h.ranks.holds k e.kvStates e.lastAccess (by rw [stamped, he]; rfl)
  constructor
  · rw [hev, stamped_put]
    exact h.ranks.use huse hstored
  · rw [hev, stamped_put]
    exact h.forgets.use huse _
  · exact h.capacity
  · rw [len_put_old he]
    exact h.fits
  · rw [hev, huse.useCount_cons, ← h.counts]
    rfl

omit h in
theorem stored_event (k : UInt64) (kv : List (LayerKvState T)) :
    Event.Uses k (.stored k kv) := Or.inr ⟨kv, rfl⟩

/-- A store under a cached hash, or below capacity. -/
theorem Faithful.store (tokens : List UInt32) (kv : List (LayerKvState T))
    (hroom : (c.entries.lookup (hashTokens tokens)).isSome ∨ c.len < c.maxEntries) :
    Faithful hashTokens maxEntries (.insert tokens kv :: past)
      (c.put (hashTokens tokens) ⟨kv, tokens.length, c.accessCounter + 1⟩) := by
  have huse := stored_event (hashTokens tokens) kv
  constructor
  · rw [stamped_put]
    exact h.ranks.use huse (by simp [lastStored])
  · rw [stamped_put]
    exact h.forgets.use huse _
  · exact h.capacity
  · cases he : c.entries.lookup (hashTokens tokens) with
    | some e =>
      rw [len_put_old he]
      exact h.fits
    | none =>
      rw [he] at hroom
      have hlt : c.len < c.maxEntries := by simpa using hroom
      rw [len_put_new he]
      exact hlt
  · show c.accessCounter + 1 = useCount (events hashTokens past) + 1
    rw [h.counts]

/-- A store under a new hash at capacity: the earliest access makes room. -/
theorem Faithful.evict_store (tokens : List UInt32) (kv : List (LayerKvState T)) {k₀ : UInt64}
    {e₀ : CacheEntry T} (hnew : c.entries.lookup (hashTokens tokens) = none)
    (hfull : c.maxEntries ≤ c.len) (h₀ : c.entries.lookup k₀ = some e₀)
    (hmin : ∀ k e, c.entries.lookup k = some e → e₀.lastAccess ≤ e.lastAccess) :
    Faithful hashTokens maxEntries (.insert tokens kv :: past)
      ((c.drop k₀).put (hashTokens tokens) ⟨kv, tokens.length, c.accessCounter + 1⟩) := by
  have huse := stored_event (hashTokens tokens) kv
  have hne : hashTokens tokens ≠ k₀ := by
    intro heq
    rw [heq, h₀] at hnew
    cases hnew
  have hs₀ : c.stamped k₀ = some (e₀.kvStates, e₀.lastAccess) := by
    rw [stamped, h₀]
    rfl
  have hsmin : ∀ k v t, c.stamped k = some (v, t) → e₀.lastAccess ≤ t := by
    intro k v t hk
    rw [stamped, Option.map_eq_some_iff] at hk
    obtain ⟨e, he, heq⟩ := hk
    cases heq
    exact hmin k e he
  have hearliest := h.ranks.usedSince_earliest mem_cachedKeys hs₀ hsmin
  have hmem : k₀ ∈ c.cachedKeys := (mem_cachedKeys k₀).mpr (by rw [hs₀]; rfl)
  constructor
  · rw [stamped_put, stamped_drop]
    exact (h.ranks.drop hs₀ hsmin).use huse (by simp [lastStored])
  · rw [stamped_put, stamped_drop]
    refine h.forgets.drop_use huse hne ?_ ?_ _
    · rw [hearliest, Finset.mem_erase, mem_cachedKeys, stamped, hnew]
      simp
    · -- all `maxEntries - 1` other entries, and the new one, were used since
      rw [hearliest, Finset.card_erase_add_one hmem, card_cachedKeys]
      exact hfull
  · exact h.capacity
  · have hdrop := len_drop h₀
    have hnew' : (c.drop k₀).entries.lookup (hashTokens tokens) = none := by
      show (c.entries.erase k₀).lookup _ = none
      rw [AssocMap.lookup_erase_ite, if_neg hne, hnew]
    have hfits := h.fits
    rw [len_put_new hnew']
    show (c.drop k₀).len + 1 ≤ c.maxEntries
    omega
  · show c.accessCounter + 1 = useCount (events hashTokens past) + 1
    rw [h.counts]

variable {tokens : List UInt32} {c' : PrefixCache T}

theorem Faithful.insert {kv : List (LayerKvState T)}
    (hrun : insert .debug hashTokens tokens kv c = .ok () c') :
    Faithful hashTokens maxEntries (.insert tokens kv :: past) c' := by
  rw [insert_run, makeRoom, bind_run, get_run, Outcome.andThen_ok] at hrun
  by_cases hroom : (c.entries.lookup (hashTokens tokens)).isNone ∧ c.maxEntries ≤ c.len
  · have hpos : 0 < c.len := by
      have := h.capacity
      omega
    obtain ⟨k₀, e₀, h₀, hmin, hevict⟩ := evictLru_spec hpos
    rw [if_pos hroom, hevict, Outcome.andThen_ok] at hrun
    split at hrun
    · cases hrun
      exact h.evict_store tokens kv (Option.isNone_iff_eq_none.mp hroom.1) hroom.2 h₀ hmin
    · cases hrun
  · rw [if_neg hroom, pure_run, Outcome.andThen_ok] at hrun
    split at hrun
    · cases hrun
      apply h.store
      cases he : c.entries.lookup (hashTokens tokens) with
      | some e => exact Or.inl rfl
      | none =>
        right
        simpa [he] using hroom
    · cases hrun

/-- A call that found nothing leaves no event. -/
theorem Faithful.miss {r : Record T} (hr : r.event hashTokens = none) :
    Faithful hashTokens maxEntries (r :: past) c := by
  have hev : events hashTokens (r :: past) = events hashTokens past := by
    rw [events, filterMap_cons, hr]
    rfl
  constructor
  · rw [hev]
    exact h.ranks
  · rw [hev]
    exact h.forgets
  · exact h.capacity
  · exact h.fits
  · rw [hev]
    exact h.counts

theorem Faithful.lookup {answer : Option (List (LayerKvState T))}
    (hrun : lookup .debug hashTokens tokens c = .ok answer c') :
    Faithful hashTokens maxEntries (.lookup tokens answer :: past) c' := by
  cases he : c.entries.lookup (hashTokens tokens) with
  | none =>
    rw [lookup_of_none he] at hrun
    cases hrun
    exact h.miss rfl
  | some e =>
    rw [lookup_of_some he] at hrun
    split at hrun
    · cases hrun
      exact h.hit rfl he
    · cases hrun

theorem Faithful.longestPrefixMatch {answer : Option (Nat × List (LayerKvState T))}
    (hrun : longestPrefixMatch .debug hashTokens tokens c = .ok answer c') :
    Faithful hashTokens maxEntries (.longestPrefixMatch tokens answer :: past) c' := by
  unfold PrefixCache.longestPrefixMatch at hrun
  rcases matchDown_cases (c := c) tokens.length with ⟨-, heq⟩ | ⟨m, e, -, -, he, -, heq⟩
  · rw [heq] at hrun
    cases hrun
    exact h.miss rfl
  · rw [heq] at hrun
    split at hrun
    · cases hrun
      exact h.hit rfl he
    · cases hrun

theorem Faithful.clear : Faithful hashTokens maxEntries (.clear :: past)
      { c with entries := ∅, accessCounter := 0 } where
  ranks := Ranks.of_empty _
  forgets := Forgets.of_cleared _ _
  capacity := h.capacity
  fits := Nat.zero_le _
  counts := rfl

omit h

/-- Every history leaves a cache that is faithful to it. -/
theorem History.faithful {build : Build} (h : History build hashTokens maxEntries past c) :
    Faithful hashTokens maxEntries past c := by
  induction h with
  | new => exact Faithful.new
  | insert _ hfits hrun ih =>
    rw [hfits.checked (insert_unchecked _ _)] at hrun
    exact ih.insert hrun
  | lookup _ hfits hrun ih =>
    rw [hfits.checked (lookup_unchecked _)] at hrun
    exact ih.lookup hrun
  | longestPrefixMatch _ hfits hrun ih =>
    rw [hfits.checked (matchDown_unchecked _ _)] at hrun
    exact ih.longestPrefixMatch hrun
  | clear _ hrun ih =>
    cases hrun
    exact ih.clear

/-- A call answers as `P` says, or it would be use number `2 ^ 64` since the
counter was last zero; it aborts then if overflow is checked. -/
def AnswersWith {α : Type} (build : Build) (hashTokens : List UInt32 → UInt64)
    (past : List (Record T)) (o : Outcome Empty (PrefixCache T) α) (P : α → Prop) : Prop :=
  (∃ answer c', o = .ok answer c' ∧ P answer) ∨
    ((build = .debug → o = .abort .addOverflow) ∧ 2 ^ 64 ≤ useCount (events hashTokens past) + 1)

/-- Where the checked call answers, the unchecked one does. -/
theorem AnswersWith.unchecked {α : Type} {m : Build → CacheM T α} {P : α → Prop}
    (hm : Unchecked (m .debug) (m .release)) (h : AnswersWith .debug hashTokens past (m .debug c) P)
    (build : Build) : AnswersWith build hashTokens past (m build c) P := by
  cases build with
  | debug => exact h
  | release =>
    rcases h with ⟨answer, c', hok, hP⟩ | ⟨-, hlimit⟩
    · rcases hm c with hover | heq
      · rw [hok] at hover
        exact hover.elim
      · exact .inl ⟨answer, c', heq.trans hok, hP⟩
    · exact .inr ⟨nofun, hlimit⟩

theorem Faithful.lookup_answers (h : Faithful hashTokens maxEntries past c)
    (tokens : List UInt32) :
    AnswersWith .debug hashTokens past (PrefixCache.lookup .debug hashTokens tokens c) fun answer =>
      answer = held (max maxEntries 1) (hashTokens tokens) (events hashTokens past) := by
  rw [AnswersWith, h.held_eq, ← h.counts]
  cases he : c.entries.lookup (hashTokens tokens) with
  | none => exact Or.inl ⟨none, c, lookup_of_none he, rfl⟩
  | some e =>
    rw [lookup_of_some he]
    split
    · exact Or.inl ⟨_, _, rfl, rfl⟩
    · rename_i hlimit
      exact Or.inr ⟨fun _ => rfl, by omega⟩

theorem Faithful.longestPrefixMatch_answers (h : Faithful hashTokens maxEntries past c)
    (tokens : List UInt32) :
    AnswersWith .debug hashTokens past (PrefixCache.longestPrefixMatch .debug hashTokens tokens c)
      (IsLongest (fun n => held (max maxEntries 1) (hashTokens (tokens.take n))
        (events hashTokens past)) tokens.length) := by
  simp only [h.held_eq]
  unfold PrefixCache.longestPrefixMatch
  rcases matchDown_cases (c := c) tokens.length with
    ⟨hnone, heq⟩ | ⟨m, e, h1, hle, he, hmax, heq⟩
  · left
    refine ⟨none, c, heq, ?_⟩
    intro m h1 h2
    simp [hnone m h1 h2]
  rw [heq]
  split
  · left
    refine ⟨_, _, rfl, h1, hle, ?_, ?_⟩
    · simp [he]
    · intro m' h3 h4
      simp [hmax m' h3 h4]
  · rename_i hlimit
    right
    rw [← h.counts]
    exact ⟨fun _ => rfl, by omega⟩

/-! ## Hashes and token sequences -/

/-- Hashing the keys of a history. -/
theorem events_eq_map (hashTokens : List UInt32 → UInt64) (past : List (Record T)) :
    events hashTokens past = (events id past).map (Event.map hashTokens) := by
  unfold events
  rw [map_filterMap]
  congr 1
  funext r
  cases r with
  | insert tokens kv => rfl
  | lookup tokens answer => cases answer <;> rfl
  | longestPrefixMatch tokens answer => cases answer <;> rfl
  | clear => rfl

theorem usesIn_of_used {S : Set (List UInt32)}
    (hS : ∀ r ∈ past, ∀ tokens, r.used = some tokens → tokens ∈ S) :
    ∀ e ∈ events id past, e.UsesIn S := by
  intro e he k hk
  obtain ⟨r, hr, hev⟩ := mem_filterMap.mp he
  apply hS r hr
  cases r with
  | insert tokens kv =>
    cases hev
    rcases hk with hk | ⟨v, hk⟩
    · cases hk
    · cases hk
      rfl
  | lookup tokens answer =>
    cases answer with
    | none => cases hev
    | some kv =>
      cases hev
      rcases hk with hk | ⟨v, hk⟩
      · cases hk
        rfl
      · cases hk
  | longestPrefixMatch tokens answer =>
    cases answer with
    | none => cases hev
    | some found =>
      cases hev
      rcases hk with hk | ⟨v, hk⟩
      · cases hk
        rfl
      · cases hk
  | clear =>
    cases hev
    rcases hk with hk | ⟨v, hk⟩
    · cases hk
    · cases hk

/-- Where the hash keeps the sequences in use apart, the answers are those
of a store keyed by the sequences themselves. -/
theorem held_hash_eq {S : Set (List UInt32)} (hinj : Set.InjOn hashTokens S)
    (hS : ∀ r ∈ past, ∀ tokens, r.used = some tokens → tokens ∈ S) (ht : tokens ∈ S) (cap : Nat) :
    held cap (hashTokens tokens) (events hashTokens past)
      = held cap tokens (events id past) := by
  rw [events_eq_map, held_map hinj (usesIn_of_used hS) ht]

/-- **The prefix cache is a least-recently-used store keyed by the hash of
the tokens**; and it is one keyed by the tokens themselves as long as the
hash keeps the sequences in use apart. -/
theorem history_answers (build : Build) (hashTokens : List UInt32 → UInt64) (maxEntries : Nat)
    (past : List (Record T)) (c : PrefixCache T) (h : History build hashTokens maxEntries past c)
    (tokens : List UInt32) :
    AnswersWith build hashTokens past (lookup build hashTokens tokens c) (fun answer =>
      answer = held (max maxEntries 1) (hashTokens tokens) (events hashTokens past)) ∧
    AnswersWith build hashTokens past (longestPrefixMatch build hashTokens tokens c)
      (IsLongest (fun n => held (max maxEntries 1) (hashTokens (tokens.take n))
        (events hashTokens past)) tokens.length) ∧
    ∀ S : Set (List UInt32), Set.InjOn hashTokens S →
      (∀ r ∈ past, ∀ used, r.used = some used → used ∈ S) → (∀ n, tokens.take n ∈ S) →
      ∀ n, held (max maxEntries 1) (hashTokens (tokens.take n)) (events hashTokens past)
        = held (max maxEntries 1) (tokens.take n) (events id past) := by
  refine ⟨(h.faithful.lookup_answers tokens).unchecked (m := (lookup · hashTokens tokens))
      (lookup_unchecked tokens) build,
    (h.faithful.longestPrefixMatch_answers tokens).unchecked
      (m := (longestPrefixMatch · hashTokens tokens)) (matchDown_unchecked tokens _) build, ?_⟩
  intro S hinj hS ht n
  exact held_hash_eq hinj hS (ht n) _

/-- Two sequences inserted, the first one found again. -/
theorem history_answers_two :
    ∃ c : PrefixCache Nat, History .debug (fun ts => ts.length.toUInt64) 2
        [.insert [1, 2] [], .insert [1] [(3, 4)]] c ∧
      AnswersWith .debug (fun ts => ts.length.toUInt64) [.insert [1, 2] [], .insert [1] [(3, 4)]]
        (lookup .debug (fun ts => ts.length.toUInt64) [1] c)
        (fun answer => answer = some [(3, 4)]) := by
  obtain ⟨c, hc⟩ : ∃ c : PrefixCache Nat, History .debug (fun ts => ts.length.toUInt64) 2
      [.insert [1, 2] [], .insert [1] [(3, 4)]] c :=
    ⟨_, .insert (.insert .new fits_debug rfl) fits_debug rfl⟩
  have hheld : held (max 2 1) ([1] : List UInt32).length.toUInt64
      (events (fun ts => ts.length.toUInt64)
        [.insert [1, 2] [], .insert [1] [((3 : Nat), 4)]]) = some [(3, 4)] := by decide
  have hserved := (history_answers .debug _ 2 _ c hc [1]).1
  rw [hheld] at hserved
  exact ⟨c, hc, hserved⟩

/-- No 64-bit hash keeps all token sequences apart: some request is always
answered with the KV states of another sequence. -/
theorem lookup_answers_other_sequence :
    ¬ ∃ hashTokens : List UInt32 → UInt64, ∀ (maxEntries : Nat) (past : List (Record Nat))
      (c : PrefixCache Nat), History .debug hashTokens maxEntries past c →
      ∀ tokens answer c', lookup .debug hashTokens tokens c = .ok answer c' →
        answer = held (max maxEntries 1) tokens (events id past) := by
  rintro ⟨hashTokens, hall⟩
  have hcollide : ¬ Function.Injective hashTokens := by
    have : Finite UInt64 := Finite.of_injective UInt64.toFin (fun a b h => UInt64.toFin_inj.mp h)
    exact not_injective_infinite_finite hashTokens
  simp only [Function.Injective, not_forall] at hcollide
  obtain ⟨x, y, hxy, hne⟩ := hcollide
  have hins : ∃ c', insert .debug hashTokens x [] (new 1 : PrefixCache Nat)
      = .ok () c' ∧ c'.entries.lookup (hashTokens x) = some ⟨[], x.length, 1⟩ ∧
        c'.accessCounter = 1 := by
    refine ⟨_, rfl, ?_, rfl⟩
    exact AList.lookup_insert _
  obtain ⟨c', hrun, hlook, hcount⟩ := hins
  rw [hxy] at hlook
  have hfound := lookup_of_some hlook
  rw [hcount, if_pos (by decide)] at hfound
  have hanswer := hall 1 _ c' (.insert .new fits_debug hrun) y _ _ hfound
  simp [held, events, Record.event, lastStored, hne] at hanswer

end Serves

end Fuel.Inference
