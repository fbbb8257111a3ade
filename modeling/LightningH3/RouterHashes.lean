/-
The block hashes of the router (`sgl-router/src/state/kv_events/hash.rs`) and those of the worker
(`mem_cache/utils.py`, `events.py` and the native page hash in `cpp_utils/hash_binding.cpp`).

Both are chains of SHA-256, which is a parameter here. They differ in everything around it: the worker
hashes node by node, keeps its digests as hex strings and reads a number off the first sixteen
characters; the router hashes a whole request in one loop over indices and reads a number off the
first eight bytes. The bridge is that a digest is found again in its hex string, and that one turn of
the router's loop is one page of the worker's chain.
-/
import LightningH3.RadixCacheEvents

set_option autoImplicit false

namespace LightningH3.Radix

open Arena RadixKey

/-! ## 1. Bytes -/

structure Digest where
  bytes : List UInt8
  length_eq : bytes.length = 32

/-- `to_le_bytes` of a token, which the worker takes from an array of `uint32`. -/
def to_le_bytes (n : ℕ) : List UInt8 :=
  [UInt8.ofNat n, UInt8.ofNat (n / 2 ^ 8), UInt8.ofNat (n / 2 ^ 16), UInt8.ofNat (n / 2 ^ 24)]

/-- The bytes of a logical unit (`fill_regular_page`, `fill_bigram_page`). Tokens outside `uint32`,
which `checked_u32` refuses, are not met where the router has the tokens too. -/
def unit_bytes : Atom → List UInt8
  | .token t => to_le_bytes t.toNat
  | .bigram t u => to_le_bytes t.toNat ++ to_le_bytes u.toNat

/-- `kHex` -/
def hex_digit (n : ℕ) : Char := ['0', '1', '2', '3', '4', '5', '6', '7', '8', '9', 'a', 'b', 'c', 'd',
  'e', 'f'].getD n '0'

def digest_to_hex_chars (bytes : List UInt8) : List Char :=
  bytes.flatMap fun byte => [hex_digit (byte.toNat / 16), hex_digit (byte.toNat % 16)]

def hex_value (c : Char) : ℕ :=
  if 'a' ≤ c then c.toNat - 'a'.toNat + 10 else c.toNat - '0'.toNat

/-- `bytes.fromhex` of a string of an even length. -/
def fromhex : List Char → List UInt8
  | high :: low :: rest => UInt8.ofNat (16 * hex_value high + hex_value low) :: fromhex rest
  | _ => []

/-- `int(s, 16)` -/
def int_of_hex (s : List Char) : ℕ := s.foldl (fun n c => 16 * n + hex_value c) 0

/-- A 64-bit word read as a signed number. -/
def signed64 (n : ℕ) : ℤ := if n ≥ 2 ^ 63 then (n : ℤ) - 2 ^ 64 else n

def hash_str_to_int64 (hash_str : List Char) : ℤ := signed64 (int_of_hex (hash_str.take 16))

theorem hex_value_digit {n : ℕ} (h : n < 16) : hex_value (hex_digit n) = n := by
  have hall : ∀ n < 16, hex_value (hex_digit n) = n := by decide
  exact hall n h

theorem hex_halves (byte : UInt8) : byte.toNat / 16 < 16 ∧ byte.toNat % 16 < 16 := by
  have hlt := byte.toNat_lt
  omega

theorem fromhex_hex (bytes : List UInt8) : fromhex (digest_to_hex_chars bytes) = bytes := by
  induction bytes with
  | nil => rfl
  | cons byte rest ih =>
    obtain ⟨hhigh, hlow⟩ := hex_halves byte
    show UInt8.ofNat (16 * hex_value (hex_digit (byte.toNat / 16))
      + hex_value (hex_digit (byte.toNat % 16))) :: fromhex (digest_to_hex_chars rest) = _
    rw [hex_value_digit hhigh, hex_value_digit hlow, ih, Nat.div_add_mod, UInt8.ofNat_toNat]

theorem int_of_hex_hex (bytes : List UInt8) :
    int_of_hex (digest_to_hex_chars bytes) = bytes.foldl (fun n byte => 256 * n + byte.toNat) 0 := by
  have hall (bytes : List UInt8) (start : ℕ) :
      (digest_to_hex_chars bytes).foldl (fun n c => 16 * n + hex_value c) start
        = bytes.foldl (fun n byte => 256 * n + byte.toNat) start := by
    induction bytes generalizing start with
    | nil => rfl
    | cons byte rest ih =>
      obtain ⟨hhigh, hlow⟩ := hex_halves byte
      show (digest_to_hex_chars rest).foldl (fun n c => 16 * n + hex_value c)
        (16 * (16 * start + hex_value (hex_digit (byte.toNat / 16)))
          + hex_value (hex_digit (byte.toNat % 16))) = _
      rw [ih, hex_value_digit hhigh, hex_value_digit hlow, List.foldl_cons]
      congr 1
      omega
  exact hall bytes 0

theorem take_hex (bytes : List UInt8) (n : ℕ) :
    (digest_to_hex_chars bytes).take (2 * n) = digest_to_hex_chars (bytes.take n) := by
  induction bytes generalizing n with
  | nil =>
    rw [List.take_nil]
    exact List.take_nil
  | cons byte rest ih =>
    cases n with
    | zero => rfl
    | succ n =>
      show List.take (2 * n + 2) (_ :: _ :: digest_to_hex_chars rest) = _
      rw [List.take_succ_cons, List.take_succ_cons, ih]
      rfl

/-! ## 2. The worker's hashes -/

/-- The worker's page hash and seeds; a digest is kept as a hex string. -/
def worker (sha256 : List UInt8 → Digest) : HashFns (List Char) where
  page prior us :=
    digest_to_hex_chars (sha256 ((prior.map fromhex).getD [] ++ us.flatMap unit_bytes)).bytes
  namespace_digest extra_key cache_salt :=
    let part : Option String → List UInt8
      | none => [0]
      | some s =>
        let encoded := s.toUTF8.toList
        1 :: to_le_bytes encoded.length ++ to_le_bytes (encoded.length / 2 ^ 32) ++ encoded
    digest_to_hex_chars (sha256 ("sglang-cache-namespace-v1".toUTF8.toList ++ part extra_key
      ++ part cache_salt)).bytes
  salt_digest cache_salt :=
    digest_to_hex_chars (sha256 ("sglang-cache-salt-v1".toUTF8.toList ++ [0]
      ++ cache_salt.toUTF8.toList)).bytes
  to_int64 := hash_str_to_int64

/-- The hashes a node's events are made from: what `_node_event_hash_values` returns. -/
def event_hashes {H : Type} (F : HashFns H) (c : RadixCache H) (n : ℕ) : Except Fault (List H) := do
  let (_, hs) ← c.node_event_hash_values F n
  return hs

/-! ## 3. The router's hashes -/

section router

variable (sha256 : List UInt8 → Digest)

def chain_block (parent_digest : Option Digest) (block_tokens : List UInt32) : Digest :=
  sha256 ((parent_digest.map Digest.bytes).getD [] ++ block_tokens.flatMap fun t => to_le_bytes t.toNat)

def sha256_to_i64 (digest : Digest) : ℤ :=
  signed64 ((digest.bytes.take 8).foldl (fun n byte => 256 * n + byte.toNat) 0)

def chain_block_bigram (parent_digest : Option Digest) (tokens : List UInt32) (start stop : ℕ) :
    Digest :=
  sha256 ((parent_digest.map Digest.bytes).getD [] ++ (List.range (stop - start)).flatMap fun j =>
      to_le_bytes (tokens.getD (start + j) 0).toNat ++
        to_le_bytes (tokens.getD (start + j + 1) 0).toNat)

/-- The loop over the blocks of `n` units; each round takes at least one, so `n` rounds are enough. -/
def block_loop (chain : Option Digest → ℕ → ℕ → Digest) (block_size n : ℕ) :
    (fuel start : ℕ) → (prior : Option Digest) → List ℤ
  | 0, _, _ => []
  | fuel + 1, start, prior =>
    if start < n then
      let stop := min (start + block_size) n
      let digest := chain prior start stop
      sha256_to_i64 digest :: block_loop chain block_size n fuel stop (some digest)
    else []

/-- `compute_block_hashes`; no value where it panics. -/
def compute_block_hashes (token_ids : List UInt32) (block_size : ℕ) : Option (List ℤ) :=
  if block_size > 0 then
    let n := token_ids.length
    some (block_loop (fun prior start stop => chain_block sha256 prior (span token_ids start stop))
      block_size n n 0 none)
  else none

def compute_block_hashes_bigram (token_ids : List UInt32) (block_size : ℕ) : Option (List ℤ) :=
  if block_size > 0 then
    let logical_len := token_ids.length - 1
    some (block_loop (fun prior start stop => chain_block_bigram sha256 prior token_ids start stop)
      block_size logical_len logical_len 0 none)
  else none

end router

/-! ## 4. One loop for both modes -/

theorem pages_eq_cons {page_size : ℕ} (hp : 0 < page_size) {us : List Atom} (hne : us ≠ []) :
    pages page_size us = us.take page_size :: pages page_size (us.drop page_size) := by
  have hpos := List.length_pos_iff.mpr hne
  by_cases hle : page_size ≤ us.length
  · have hlen : (us.take page_size).length = page_size := by
      rw [List.length_take, Nat.min_eq_left hle]
    have hcons : pages page_size (us.take page_size ++ us.drop page_size)
        = us.take page_size :: pages page_size (us.drop page_size) := pages_cons hp hlen
    rw [List.take_append_drop] at hcons
    exact hcons
  · have hone : (us.length + page_size - 1) / page_size = 1 := by
      apply Nat.div_eq_of_lt_le <;> omega
    rw [List.drop_eq_nil_of_le (by omega), pages_nil hp, pages, hone]
    simp

/-- The units of a request in the two modes. -/
def token_units (token_ids : List UInt32) : List Atom := token_ids.map fun t => .token (t.toNat : ℤ)

def bigram_units (token_ids : List UInt32) : List Atom :=
  bigrams (token_ids.map fun t => (t.toNat : ℤ))

section bridge

variable {sha256 : List UInt8 → Digest}

/-- A digest as the worker keeps it. -/
def hexdigest (digest : Digest) : List Char := digest_to_hex_chars digest.bytes

theorem to_int64_hexdigest (digest : Digest) :
    (worker sha256).to_int64 (hexdigest digest) = sha256_to_i64 digest := by
  show signed64 (int_of_hex ((digest_to_hex_chars digest.bytes).take (2 * 8))) = _
  rw [take_hex, int_of_hex_hex]
  rfl

theorem prior_bytes (prior : Option Digest) :
    ((prior.map hexdigest).map fromhex).getD [] = (prior.map Digest.bytes).getD [] := by
  cases prior with
  | none => rfl
  | some digest => exact fromhex_hex digest.bytes

variable {block_size : ℕ}

/-- **The loop is the chain**: one round is one page, chained on the digest of the one before. -/
theorem block_loop_eq {chain : Option Digest → ℕ → ℕ → Digest} {us : List Atom}
    (hp : 0 < block_size) (hchain : ∀ prior start stop, start ≤ stop → stop ≤ us.length →
      hexdigest (chain prior start stop)
        = (worker sha256).page (prior.map hexdigest) ((us.drop start).take (stop - start))) :
    ∀ (fuel start : ℕ) (prior : Option Digest), us.length - start ≤ fuel →
      block_loop chain block_size us.length fuel start prior
        = (hash_pages (worker sha256) (prior.map hexdigest)
            (pages block_size (us.drop start))).map (worker sha256).to_int64 := by
  intro fuel
  induction fuel with
  | zero =>
    intro start prior hfuel
    rw [List.drop_eq_nil_of_le (by omega), pages_nil hp]
    rfl
  | succ fuel ih =>
    intro start prior hfuel
    unfold block_loop
    by_cases hlt : start < us.length
    · have hne : us.drop start ≠ [] := by
        intro hnil
        have hlen := congrArg List.length hnil
        rw [List.length_drop, List.length_nil] at hlen
        omega
      have htake : (us.drop start).take (min (start + block_size) us.length - start)
          = (us.drop start).take block_size := by
        rw [List.take_eq_take_iff, List.length_drop]
        omega
      have hdrop : us.drop (min (start + block_size) us.length)
          = (us.drop start).drop block_size := by
        rw [List.drop_drop]
        by_cases hle : start + block_size ≤ us.length
        · rw [Nat.min_eq_left hle]
        · rw [List.drop_eq_nil_of_le (by omega), List.drop_eq_nil_of_le (by omega)]
      have hpage := hchain prior start (min (start + block_size) us.length) (by omega)
        (Nat.min_le_right _ _)
      rw [htake] at hpage
      rw [if_pos hlt, pages_eq_cons hp hne, hash_pages, List.map_cons, ← hpage, to_int64_hexdigest]
      dsimp only
      rw [ih _ _ (by omega), hdrop]
      rfl
    · rw [if_neg hlt, List.drop_eq_nil_of_le (by omega), pages_nil hp]
      rfl

/-- **The router's hashes of a request** are the worker's chain over its pages. -/
theorem compute_block_hashes_eq (hp : 0 < block_size) (token_ids : List UInt32) :
    compute_block_hashes sha256 token_ids block_size
      = some ((hash_pages (worker sha256) none (pages block_size (token_units token_ids))).map
          (worker sha256).to_int64) := by
  have hlength : (token_units token_ids).length = token_ids.length := List.length_map _
  unfold compute_block_hashes
  rw [if_pos hp]
  dsimp only
  rw [← hlength, block_loop_eq hp ?_ _ 0 none (Nat.sub_le _ _)]
  · rfl
  · intro prior start stop _ _
    congr 3
    rw [prior_bytes]
    unfold token_units span
    rw [← List.map_drop, ← List.map_take, List.flatMap_map]
    rfl

theorem compute_block_hashes_bigram_eq (hp : 0 < block_size) (token_ids : List UInt32) :
    compute_block_hashes_bigram sha256 token_ids block_size
      = some ((hash_pages (worker sha256) none (pages block_size (bigram_units token_ids))).map
          (worker sha256).to_int64) := by
  have hlength : (bigram_units token_ids).length = token_ids.length - 1 := by
    unfold bigram_units
    rw [length_bigrams, List.length_map]
  unfold compute_block_hashes_bigram
  rw [if_pos hp]
  dsimp only
  rw [← hlength, block_loop_eq hp ?_ _ 0 none (Nat.sub_le _ _)]
  · rfl
  · intro prior start stop hle hstop
    congr 3
    rw [prior_bytes]
    -- the pairs of a page, read off the tokens
    have hpage : ((bigram_units token_ids).drop start).take (stop - start)
        = (List.range (stop - start)).map fun j => Atom.bigram
            ((token_ids.getD (start + j) 0).toNat : ℤ)
            ((token_ids.getD (start + j + 1) 0).toNat : ℤ) := by
      apply List.ext_getElem
      · rw [List.length_take, List.length_drop, List.length_map, List.length_range]
        omega
      · intro j h₁ h₂
        rw [List.length_map, List.length_range] at h₂
        rw [List.getElem_take, List.getElem_drop, List.getElem_map, List.getElem_range]
        unfold bigram_units bigrams
        rw [List.getElem_zipWith, List.getElem_map, List.getElem_tail, List.getElem_map,
          List.getD_eq_getElem _ _ (by omega), List.getD_eq_getElem _ _ (by omega)]
    rw [hpage, List.flatMap_map]
    rfl

end bridge

/-! ## 5. Paths spell requests -/

/-- The units of a request in one of the two modes. -/
def Spelled (us : List Atom) : Prop := ∃ ts : List ℤ, us = ts.map Atom.token ∨ us = bigrams ts

theorem spelled_nil : Spelled [] := ⟨[], .inl rfl⟩

theorem spelled_units (k : RadixKey) : Spelled k.units := by
  refine ⟨k.raw_token_ids, ?_⟩
  unfold units
  by_cases hb : k.is_bigram
  · right
    rw [if_pos hb]
  · left
    rw [if_neg hb]

theorem Spelled.initial {us vs : List Atom} (h : Spelled us) (hvs : vs <+: us) : Spelled vs := by
  obtain ⟨ts, hts⟩ := h
  rw [List.prefix_iff_eq_take] at hvs
  rcases hts with htoken | hbigram
  · refine ⟨ts.take vs.length, .inl ?_⟩
    rw [hvs, htoken]
    simp
  · refine ⟨ts.take (vs.length + 1), .inr ?_⟩
    rw [← take_bigrams, ← hbigram]
    exact hvs

section paths

variable {H : Type} {F : HashFns H}

variable {c : RadixCache H}

theorem Evictions.held {c' : RadixCache H} {removed : List ℕ} (e : Evictions F c c' removed) :
    Shape c → ∀ {ns : Namespace} {es : List (Atom × ℤ)}, Held c' ns es → Held c ns es := by
  induction e with
  | nil c => exact fun _ _ _ hes => hes
  | @cons c c₁ c₂ c' p x k us _ _ d rec hus _ _ ih =>
    intro h ns es hes
    have hrest := ih ((d.shape h).congr rec.toSameBooks) hes
    obtain ⟨full, hfull⟩ := hus.inTree.reads entries
    exact ((d.held_iff h hfull).mp (rec.toSameBooks.held_iff.mp hrest)).1

variable {m : Machine H}

/-- **One step**: what is held afterwards was held before or begins what is filed. -/
theorem Moved.spelled {m' : Machine H} {op : Op H} (mv : Moved F m op m') (s : Sound F m)
    (hold : ∀ ns es, Held m.cache ns es → Spelled (es.map Prod.fst)) :
    ∀ ns es, Held m'.cache ns es → Spelled (es.map Prod.fst) := by
  intro ns es hes
  cases mv with
  | skipped => exact hold ns es hes
  | @inserted key value _ _ _ _ _ _ hfollows hcov hheld =>
    rcases (hheld ns es).mp hes with hbefore | ⟨-, hpre, -⟩
    · exact hold ns es hbefore
    · apply (spelled_units (filed_key m.cache key)).initial
      rw [← spelled_rest hcov hfollows]
      exact hpre.map Prod.fst
  | matched r => exact hold ns es (r.held_iff.mp hes)
  | locked r | unlocked r => exact hold ns es (r.held_iff.mp hes)
  | evicted e => exact hold ns es (e.held s.shape hes)
  | reset =>
    rw [held_reset m.cache hes]
    exact spelled_nil
  | taken => exact hold ns es ((SameBooks.take_events m.cache).held_iff.mp hes)

theorem held_spelled {config : CacheConfig} (h : Reachable F config m) :
    ∀ ns es, Held m.cache ns es → Spelled (es.map Prod.fst) := by
  induction h with
  | init =>
    intro ns es hes
    rw [held_reset _ hes]
    exact spelled_nil
  | step hr hp hok ih =>
    have s := sound_of_reachable hr
    exact (s.moved hp hok).1.spelled s ih

variable {n : ℕ}

/-- **Every path** of every state spells a request. -/
theorem path_spelled {config : CacheConfig} (h : Reachable F config m) {us : List Atom}
    (hus : Reads m.cache.tree units_of n us) : Spelled us := by
  have hshape := (sound_of_reachable h).shape
  by_cases hroot : n = m.cache.tree.root
  · subst hroot
    rw [hshape.linked.reads_unique hus .root]
    exact spelled_nil
  · obtain ⟨full, hfull⟩ := hus.inTree.reads entries
    rw [hshape.linked.reads_unique hus (hshape.reads_units_of hfull)]
    exact held_spelled h (m.cache.node n).key.namespace_of full
      (.inr ⟨n, full, hroot, rfl, hfull, List.prefix_refl _, hshape.dvd_length_of_reads hfull⟩)

/-! ## 6. The hashes along a path -/

theorem event_hashes_of_published {hs : List H} (hplain : Plain (c.node n).key)
    (hpub : published c n = some hs) : event_hashes F c n = .ok hs := by
  unfold published at hpub
  rw [if_pos hplain] at hpub
  unfold event_hashes RadixCache.node_event_hash_values
  rw [hpub]
  have hcond : ((c.set_info n { c.info n with hash_value := some hs }).node n).key.extra_key = none ∧
      ((c.set_info n { c.info n with hash_value := some hs }).node n).key.cache_salt = none := hplain
  rw [Option.getD_some, if_pos hcond]
  rfl

/-- **Along a path** the nodes answer the chain over the whole path, wherever it is divided. -/
theorem trail_event_hashes (h : Shape c) (hh : Hashed F c)
    (hen : c.config.enable_kv_cache_events = true) {l : List ℕ} (hl : Trail c.tree n l) :
    (∀ x ∈ l, Plain (c.node x).key) → ∀ us, Reads c.tree units_of n us →
      ∃ hss, l.mapM (event_hashes F c) = .ok hss ∧
        hss.flatten = chain F c.page_size (none, none) us := by
  induction hl with
  | root =>
    intro _ us hus
    rw [h.linked.reads_unique hus .root]
    refine ⟨[], rfl, ?_⟩
    rw [chain, pages_nil c.page_size_pos]
    rfl
  | @child p n k l hp hk ih =>
    intro hplain us hus
    obtain ⟨up, hup⟩ := hp.inTree.reads units_of
    obtain ⟨hss, hmap, hchain⟩ := ih (fun x hx => hplain x (List.mem_append_left _ hx)) up hup
    have hn : Plain (c.node n).key := hplain n (List.mem_append_right _ (List.mem_singleton_self n))
    have hpub := hh.nodes hen p k n up hup hk
    refine ⟨hss ++ [node_hashes F c n up], ?_, ?_⟩
    · rw [List.mapM_append, hmap, List.mapM_cons, event_hashes_of_published hn hpub]
      rfl
    · have hunits : us = up ++ (c.node n).key.units := h.linked.reads_unique hus (.child hup hk)
      have hns : (c.node n).key.namespace_of = (none, none) := (plain_iff _).mp hn
      rw [hunits, chain_append F c.page_size_pos _ (h.dvd_length_units hup), List.flatten_append,
        node_hashes, hns]
      congr 1
      exact List.append_nil _

end paths

/-! ## 7. Both sides agree -/

/-- **The router asks for what the worker published.** In every state of every run of a cache that
records events, along every path of keys without a namespace, the nodes' event hashes put together
are the block hashes the router computes for the request the path spells, in either mode. -/
theorem router_queries_published {sha256 : List UInt8 → Digest} {config : CacheConfig}
    {m : Machine (List Char)} (h : Reachable (worker sha256) config m)
    (hen : config.enable_kv_cache_events = true) {n : ℕ} {l : List ℕ} {us : List Atom}
    (hl : Trail m.cache.tree n l) (hus : Reads m.cache.tree units_of n us)
    (hplain : ∀ x ∈ l, Plain (m.cache.node x).key) :
    Spelled us ∧ ∃ hss, l.mapM (event_hashes (worker sha256) m.cache) = .ok hss ∧
      ∀ token_ids : List UInt32,
        (us = token_units token_ids → compute_block_hashes sha256 token_ids m.cache.page_size
          = some (hss.flatten.map hash_str_to_int64)) ∧ (us = bigram_units token_ids →
          compute_block_hashes_bigram sha256 token_ids m.cache.page_size
            = some (hss.flatten.map hash_str_to_int64)) := by
  have s := sound_of_reachable h
  have hen' : m.cache.config.enable_kv_cache_events = true := by
    rw [config_of_reachable h]
    exact hen
  obtain ⟨hss, hmap, hchain⟩ := trail_event_hashes s.shape s.hashed hen' hl hplain us hus
  refine ⟨path_spelled h hus, hss, hmap, ?_⟩
  intro token_ids
  rw [hchain]
  constructor
  · rintro rfl
    exact compute_block_hashes_eq m.cache.page_size_pos token_ids
  · rintro rfl
    exact compute_block_hashes_bigram_eq m.cache.page_size_pos token_ids

/-- SHA-256 on the two inputs below: the bytes of token 7, and those of token 8 after its digest. -/
def sha256_small (input : List UInt8) : Digest :=
  if input = [7, 0, 0, 0] then
    ⟨[232, 97, 63, 90, 91, 201, 249, 254, 237, 163, 42, 142, 124, 128, 182, 157, 212, 135, 142, 71,
      182, 169, 23, 35, 251, 21, 235, 132, 35, 107, 106, 43], rfl⟩
  else
    ⟨[12, 137, 59, 44, 213, 157, 207, 93, 180, 142, 121, 163, 71, 202, 7, 238, 241, 37, 131, 223, 130,
      163, 133, 155, 38, 53, 255, 69, 139, 94, 195, 0], rfl⟩

/-- Two tokens inserted as one node, which a lookup of the first then divides. -/
def divided (F : HashFns (List Char)) : Machine (List Char) :=
  next F (next F ⟨RadixCache.init recording_cache, [], []⟩ (insert_op [7, 8] none none))
    ( Op.match_prefix (plain_key [7]))

theorem divided_agrees :
    ∃ hss, [2, 1].mapM (event_hashes (worker sha256_small) (divided (worker sha256_small)).cache)
        = .ok hss ∧
      compute_block_hashes sha256_small [7, 8] 1 = some (hss.flatten.map hash_str_to_int64) ∧
      hss.flatten.map hash_str_to_int64 = [-1702009526849766914, 903318264012984157] := by
  have hreach : Reachable (worker sha256_small) recording_cache (divided (worker sha256_small)) :=
    .next (.next .init (permitted_insert _ [7, 8] none none)) trivial
  have hfirst : (divided (worker sha256_small)).cache.tree.child? 0 (.plain [.token 7]) = some 2 := by
    decide +kernel
  have hsecond : (divided (worker sha256_small)).cache.tree.child? 2 (.plain [.token 8]) = some 1 := by
    decide +kernel
  have hus : Reads (divided (worker sha256_small)).cache.tree units_of 1
      (([] ++ units_of ((divided (worker sha256_small)).cache.tree.data 2))
        ++ units_of ((divided (worker sha256_small)).cache.tree.data 1)) :=
    .child (.child .root hfirst) hsecond
  have hspell : ([] ++ units_of ((divided (worker sha256_small)).cache.tree.data 2))
      ++ units_of ((divided (worker sha256_small)).cache.tree.data 1) = token_units [7, 8] := by
    decide +kernel
  have hplain : ∀ x ∈ [2, 1], Plain ((divided (worker sha256_small)).cache.node x).key := by
    decide +kernel
  obtain ⟨-, hss, hmap, hall⟩ := router_queries_published hreach rfl
    (.child (.child .root hfirst) hsecond) hus hplain
  have hrouter := (hall [7, 8]).1 hspell
  have hps : (divided (worker sha256_small)).cache.page_size = 1 := rfl
  rw [hps] at hrouter
  refine ⟨hss, hmap, hrouter, ?_⟩
  have hvalue : compute_block_hashes sha256_small [7, 8] 1
      = some [-1702009526849766914, 903318264012984157] := by
    decide +kernel
  rw [hrouter] at hvalue
  exact Option.some.inj hvalue

end LightningH3.Radix
