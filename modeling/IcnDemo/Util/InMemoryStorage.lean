import IcnDemo.NameOrder
import IcnDemo.Lib.Runs

/-!
# In-memory storage

An `InMemoryStorage` takes the entry for a packet from a pool, and entries and pool together make up
the capacity.  The capacity is doubled when the storage is full, up to the limit, and halved when
few entries are in use.  A capacity of 0 cannot be doubled, and one beyond the limit is cut down
instead, so that a full storage has no entry for another packet then.

The policies keep the entries in a cleanup index and evict the one that comes first in it.  The
index holds exactly the entries in use (`Indexed`), so an eviction always frees one.
-/

namespace IcnDemo

open List

namespace InMemoryStorage

/-- The policies, each a class derived from `InMemoryStorage`. -/
inductive Policy where
  | fifo
  | lru
  | lfu
  | persistent
deriving DecidableEq

/-- The limit and the policy of a storage. -/
structure Params where
  limit : ℕ
  policy : Policy

/-- An element of a cleanup index: an entry, given by the full name of its packet, and how often it
was accessed; only the index of Lfu has the second part. -/
structure CleanupEntry where
  entry : Name
  frequency : UInt64
deriving DecidableEq

end InMemoryStorage

/-- The packets in the order of their full names, the size of the pool, the capacity, and the
cleanup index.  The number of packets that the source counts is the length of the list. -/
structure InMemoryStorage where
  cache : List Data
  nFreeEntries : ℕ
  capacity : ℕ
  cleanupIndex : List InMemoryStorage.CleanupEntry
  deriving DecidableEq

namespace InMemoryStorage

/-- The constructor; the capacity is 10 at first, if the limit allows it. -/
def create (limit : ℕ) : InMemoryStorage :=
  ⟨[], min 10 limit, min 10 limit, []⟩

/-- `isFull`. -/
def isFull (s : InMemoryStorage) : Bool :=
  s.capacity ≤ s.cache.length

/-! ### The cleanup index -/

/-- The place of an element in the index by frequency, behind its equals. -/
def placeByFrequency (c : CleanupEntry) (index : List CleanupEntry) : List CleanupEntry :=
  (index.takeWhile fun x => x.frequency ≤ c.frequency) ++
    c :: index.dropWhile fun x => x.frequency ≤ c.frequency

/-- `modify` with `incrementFrequency`: the element is moved only if the index is not in order with
its new frequency. -/
def incrementFrequency (n : Name) (index : List CleanupEntry) : List CleanupEntry :=
  let changed := index.map fun x =>
    if x.entry = n then { x with frequency := x.frequency + 1 } else x
  match changed.find? fun x => x.entry = n with
  | none => index
  | some c =>
      if changed.Pairwise fun x y => x.frequency ≤ y.frequency then changed
      else placeByFrequency c (index.eraseP fun x => x.entry = n)

variable (s : InMemoryStorage) (P : Params) (n : Name)

/-- `afterInsert` of the policy. -/
def afterInsert : InMemoryStorage :=
  match P.policy with
  | .fifo | .lru => { s with cleanupIndex := s.cleanupIndex ++ [⟨n, 0⟩] }
  | .lfu => { s with cleanupIndex := placeByFrequency ⟨n, 0⟩ s.cleanupIndex }
  | .persistent => s

/-- `beforeErase` of the policy. -/
def beforeErase : InMemoryStorage :=
  match P.policy with
  | .fifo | .lru | .lfu =>
      { s with cleanupIndex := s.cleanupIndex.eraseP fun x => x.entry = n }
  | .persistent => s

/-- `afterAccess` of the policy. -/
def afterAccess : InMemoryStorage :=
  match P.policy with
  | .fifo | .persistent => s
  | .lru => (s.beforeErase P n).afterInsert P n
  | .lfu => { s with cleanupIndex := incrementFrequency n s.cleanupIndex }

/-! ### The calls -/

/-- `freeEntry` of the entry with a full name. -/
def freeEntry : InMemoryStorage :=
  { s with
    cache := s.cache.eraseP fun d => d.fullName = n
    nFreeEntries := s.nFreeEntries + 1 }

/-- `eraseImpl`. -/
def eraseImpl : InMemoryStorage :=
  if s.cache.any fun d => d.fullName = n then s.freeEntry n else s

/-- `evictItem` of the policy, `none` if it returns false. -/
def evictItem : Option InMemoryStorage :=
  match P.policy with
  | .fifo | .lru | .lfu =>
      match s.cleanupIndex with
      | [] => none
      | c :: index => some { s.eraseImpl c.entry with cleanupIndex := index }
  | .persistent => none

/-- The loop of `setCapacity`; `false` stands for the exception. -/
def evictLoop (P : Params) : ℕ → ℤ → InMemoryStorage → InMemoryStorage × Bool
  | 0, _, s => (s, true)
  | fuel + 1, nAllowedFailures, s =>
    if s.cache.length ≤ s.capacity then (s, true)
    else
      match s.evictItem P with
      | some s => evictLoop P fuel nAllowedFailures s
      | none =>
        if nAllowedFailures - 1 < 0 then (s, false)
        else evictLoop P fuel (nAllowedFailures - 1) s

/-- `setCapacity`.  Each round of the loop frees an entry or is one of the failures that are
allowed. -/
def setCapacity (capacity : ℕ) : InMemoryStorage × Bool :=
  let r := evictLoop P (2 * s.cache.length + 2) (s.cache.length - capacity)
    { s with capacity := capacity }
  if r.2 then
    ({ r.1 with nFreeEntries := if s.capacity ≤ capacity then
        r.1.nFreeEntries + (capacity - s.capacity)
      else r.1.nFreeEntries - (s.capacity - capacity) }, true)
  else r

/-- Does the full name of a packet come before a name? -/
def below (n : Name) (d : Data) : Bool :=
  Name.compare d.fullName n = .lt

/-- The end of `insert`; `false` if the pool is empty, which the source asserts it is not. -/
def store (d : Data) : InMemoryStorage × Bool :=
  if s.nFreeEntries = 0 then (s, false)
  else
    (({ s with
      cache := s.cache.takeWhile (below d.fullName) ++ d :: s.cache.dropWhile (below d.fullName)
      nFreeEntries := s.nFreeEntries - 1 }).afterInsert P d.fullName, true)

/-- `insert`; `false` if it throws or finds no free entry. -/
def insert (d : Data) : InMemoryStorage × Bool :=
  if s.cache.any fun d' => d'.fullName = d.fullName then (s, true)
  else
    let doesReachLimit := P.limit == s.capacity
    let r := if s.isFull && !doesReachLimit then s.setCapacity P (min (2 * s.capacity) P.limit)
      else (s, true)
    if !r.2 then r
    else if r.1.isFull && doesReachLimit then ((r.1.evictItem P).getD r.1).store P d
    else r.1.store P d

/-- The entries that `erase` gives up, one after the other. -/
def eraseEntries (ds : List Data) : InMemoryStorage :=
  ds.foldl (fun s d => (s.beforeErase P d.fullName).freeEntry d.fullName) s

/-- The end of `erase`. -/
def shrink : InMemoryStorage × Bool :=
  if 2 * s.cache.length < s.nFreeEntries then s.setCapacity P (s.capacity / 2) else (s, true)

/-- `erase`. -/
def erase (isPrefix : Bool) : InMemoryStorage × Bool :=
  if isPrefix then
    (s.eraseEntries P ((s.cache.dropWhile (below n)).takeWhile fun d =>
      n.isPrefixOf d.name)).shrink P
  else
    match s.cache.find? fun d => d.fullName = n with
    | none => (s, true)
    | some d => (s.eraseEntries P [d]).shrink P

/-- `find` of a name: the policy is told of the packet that is found. -/
def find : InMemoryStorage × Option Data :=
  match s.cache.find? fun d => !below n d with
  | none => (s, none)
  | some d =>
      if n.isPrefixOf d.fullName then (s.afterAccess P d.fullName, some d) else (s, none)

/-- The calls.  `find` of an Interest tells the policy of one of the packets or of none; which one
`selectChild` returns is left open. -/
inductive Event where
  | insert (d : Data)
  | erase (n : Name) (isPrefix : Bool)
  | setCapacity (capacity : ℕ)
  | find (n : Name)
  | findInterest (selected : Option ℕ)

/-- The storage after a call. -/
def step : Event → InMemoryStorage
  | .insert d => (s.insert P d).1
  | .erase n isPrefix => (s.erase P n isPrefix).1
  | .setCapacity capacity => (s.setCapacity P capacity).1
  | .find n => (s.find P n).1
  | .findInterest selected =>
      match selected.bind fun i => s.cache[i]? with
      | none => s
      | some d => s.afterAccess P d.fullName

/-- Entries and pool make up the capacity. -/
def Balanced : Prop :=
  s.cache.length + s.nFreeEntries = s.capacity

/-- After the call entries and pool make up the capacity, and an inserted packet is there. -/
structure Sound (ev : Event) : Prop where
  balanced : (s.step P ev).Balanced
  stored : ∀ d, ev = .insert d → d.fullName ∈ (s.step P ev).cache.map Data.fullName

/-- A new packet for a full storage needs a capacity that can be doubled, or at the limit a policy
that evicts; and a capacity below the number of packets needs such a policy. -/
def EventOk : Event → Prop
  | .insert d => d.fullName ∈ s.cache.map Data.fullName ∨ s.cache.length < s.capacity ∨
      (0 < s.capacity ∧ s.capacity < P.limit) ∨
      (s.capacity = P.limit ∧ P.policy ≠ .persistent)
  | .setCapacity capacity => P.policy ≠ .persistent ∨ s.cache.length ≤ capacity
  | .erase _ _ | .find _ | .findInterest _ => True

instance (ev : Event) : Decidable (s.EventOk P ev) := by
  cases ev <;> unfold EventOk <;> infer_instance

/-! ### The index holds the entries in use -/

/-- No two packets have the same full name, and the cleanup index of a policy that evicts holds
exactly the entries of the packets. -/
structure Indexed : Prop where
  nodup : (s.cache.map Data.fullName).Nodup
  perm : P.policy ≠ .persistent →
    (s.cleanupIndex.map CleanupEntry.entry).Perm (s.cache.map Data.fullName)

variable {s P n}

/-- Taking the entry of a full name away takes the name away. -/
theorem map_eraseP_name {α : Type} (f : α → Name) (l : List α) (n : Name) :
    (l.eraseP fun x => f x = n).map f = (l.map f).erase n := by
  rw [erase_eq_eraseP, eraseP_map]
  congr 2
  funext x
  rw [Function.comp_apply, Bool.eq_iff_iff, decide_eq_true_iff, beq_iff_eq]
  exact eq_comm

/-- An element is put somewhere among the others. -/
theorem placeByFrequency_perm (c : CleanupEntry) (index : List CleanupEntry) :
    (placeByFrequency c index).Perm (c :: index) := by
  unfold placeByFrequency
  refine perm_middle.trans (Perm.cons c ?_)
  rw [takeWhile_append_dropWhile]

/-- A new frequency does not change which entries are in the index. -/
theorem incrementFrequency_perm (n : Name) (index : List CleanupEntry) :
    ((incrementFrequency n index).map CleanupEntry.entry).Perm
      (index.map CleanupEntry.entry) := by
  have hnames : (index.map fun x =>
      if x.entry = n then { x with frequency := x.frequency + 1 } else x).map CleanupEntry.entry =
      index.map CleanupEntry.entry := by
    rw [map_map]
    refine map_congr_left fun x _ => ?_
    by_cases hx : x.entry = n <;> simp [hx]
  unfold incrementFrequency
  simp only
  split
  · exact Perm.refl _
  rename_i c hc
  split
  · rw [hnames]
  -- the element is taken out and put back in another place
  have hentry : c.entry = n := by simpa using find?_some hc
  have hmem := mem_map_of_mem (f := CleanupEntry.entry) (mem_of_find?_eq_some hc)
  rw [hnames, hentry] at hmem
  refine ((placeByFrequency_perm c _).map _).trans ?_
  rw [map_cons, map_eraseP_name CleanupEntry.entry, hentry]
  exact (perm_cons_erase hmem).symm

/-- A new entry is put into the index. -/
theorem Indexed.afterInsert {t : InMemoryStorage} (h : Indexed s P)
    (ht : t.cleanupIndex = s.cleanupIndex) (hcache : (t.cache.map Data.fullName).Perm
      (n :: s.cache.map Data.fullName)) (hnew : n ∉ s.cache.map Data.fullName) :
    Indexed (t.afterInsert P n) P := by
  have hkeeps : (t.afterInsert P n).cache = t.cache := by
    unfold InMemoryStorage.afterInsert
    split <;> rfl
  refine ⟨?_, fun hpolicy => ?_⟩
  · rw [hkeeps]
    exact hcache.nodup_iff.mpr (nodup_cons.mpr ⟨hnew, h.nodup⟩)
  have hindex : ((t.afterInsert P n).cleanupIndex.map CleanupEntry.entry).Perm
      (n :: s.cleanupIndex.map CleanupEntry.entry) := by
    unfold InMemoryStorage.afterInsert
    split
    · simp only [ht, map_append]
      exact perm_append_singleton _ _
    · simp only [ht, map_append]
      exact perm_append_singleton _ _
    · simp only [ht]
      exact (placeByFrequency_perm ⟨n, 0⟩ _).map _
    · contradiction
  rw [hkeeps]
  exact hindex.trans (((h.perm hpolicy).cons n).trans hcache.symm)

/-- An entry that is given up is not in the index any more. -/
theorem Indexed.eraseEntry (h : Indexed s P) (n : Name) :
    Indexed ((s.beforeErase P n).freeEntry n) P := by
  have hcache : ((s.beforeErase P n).freeEntry n).cache.map Data.fullName =
      (s.cache.map Data.fullName).erase n := by
    rw [← map_eraseP_name Data.fullName]
    unfold freeEntry beforeErase
    split <;> rfl
  refine ⟨hcache ▸ h.nodup.erase n, fun hpolicy => ?_⟩
  rw [hcache]
  have hindex : ((s.beforeErase P n).freeEntry n).cleanupIndex =
      s.cleanupIndex.eraseP fun x => x.entry = n := by
    unfold freeEntry beforeErase
    split <;> first | rfl | contradiction
  rw [hindex, map_eraseP_name CleanupEntry.entry]
  exact (h.perm hpolicy).erase n

/-- An access changes at most the order of the index. -/
theorem Indexed.afterAccess (h : Indexed s P) (hn : n ∈ s.cache.map Data.fullName) :
    Indexed (s.afterAccess P n) P := by
  unfold InMemoryStorage.afterAccess
  split
  · exact h
  · exact h
  · rename_i hlru
    refine ⟨?_, fun hpolicy => ?_⟩
    · simpa [InMemoryStorage.afterInsert, beforeErase, hlru] using h.nodup
    · have hperm := h.perm hpolicy
      simp only [InMemoryStorage.afterInsert, beforeErase, hlru, map_append,
        map_eraseP_name CleanupEntry.entry]
      refine (perm_append_singleton _ _).trans (Perm.trans ?_ hperm)
      exact (perm_cons_erase (hperm.mem_iff.mpr hn)).symm
  · exact ⟨h.nodup, fun hpolicy => (incrementFrequency_perm n _).trans (h.perm hpolicy)⟩

/-- An access changes at most the order of removal. -/
theorem afterAccess_eq (s : InMemoryStorage) (P : Params) (n : Name) :
    ∃ index, s.afterAccess P n = { s with cleanupIndex := index } := by
  unfold InMemoryStorage.afterAccess InMemoryStorage.afterInsert beforeErase
  split
  · exact ⟨_, rfl⟩
  · exact ⟨_, rfl⟩
  · split <;> exact ⟨_, rfl⟩
  · exact ⟨_, rfl⟩

/-! ### Freeing entries -/

/-- Giving up the entry of a packet puts one entry into the pool. -/
theorem freeEntry_length (s : InMemoryStorage) {n : Name} (hn : n ∈ s.cache.map Data.fullName) :
    (s.freeEntry n).cache.length + 1 = s.cache.length := by
  obtain ⟨d, hd, hname⟩ := mem_map.mp hn
  have hlength :=
    length_eraseP_of_mem (p := fun d : Data => d.fullName = n) hd (by simpa using hname)
  have hpos := length_pos_of_mem hd
  simp only [freeEntry, hlength]
  omega

/-- A packet is looked up by its full name. -/
theorem any_fullName_iff (s : InMemoryStorage) (n : Name) :
    (s.cache.any fun d => d.fullName = n) = true ↔ n ∈ s.cache.map Data.fullName := by
  simp only [any_eq_true, decide_eq_true_eq, mem_map]

/-- A persistent storage evicts nothing. -/
theorem evictItem_persistent (hpolicy : P.policy = .persistent) : s.evictItem P = none := by
  unfold evictItem
  rw [hpolicy]

/-- A policy that evicts frees an entry as long as there are packets. -/
theorem evictItem_spec (h : Indexed s P) (hpolicy : P.policy ≠ .persistent) (hne : s.cache ≠ []) :
    ∃ t, s.evictItem P = some t ∧ Indexed t P ∧ t.capacity = s.capacity ∧
      t.cache.length + 1 = s.cache.length ∧ t.nFreeEntries = s.nFreeEntries + 1 ∧
      t.cache <+ s.cache := by
  have hperm := h.perm hpolicy
  obtain ⟨c, index, hindex⟩ : ∃ c index, s.cleanupIndex = c :: index := by
    refine exists_cons_of_ne_nil fun hnil => hne ?_
    rw [hnil, map_nil, nil_perm, map_eq_nil_iff] at hperm
    exact hperm
  have hmem : c.entry ∈ s.cache.map Data.fullName :=
    hperm.mem_iff.mp (by simp [hindex])
  have herase : s.eraseImpl c.entry = s.freeEntry c.entry :=
    if_pos ((any_fullName_iff s c.entry).mpr hmem)
  have hevict : s.evictItem P = some { s.freeEntry c.entry with cleanupIndex := index } := by
    unfold evictItem
    rw [hindex, ← herase]
    split <;> first | rfl | contradiction
  refine ⟨_, hevict, ⟨?_, fun _ => ?_⟩, rfl, freeEntry_length s hmem, rfl, eraseP_sublist⟩
  · change (map Data.fullName (s.cache.eraseP fun d => d.fullName = c.entry)).Nodup
    rw [map_eraseP_name Data.fullName]
    exact h.nodup.erase _
  · change (map CleanupEntry.entry index).Perm
      (map Data.fullName (s.cache.eraseP fun d => d.fullName = c.entry))
    rw [map_eraseP_name Data.fullName]
    have herase := hperm.erase c.entry
    rwa [hindex, map_cons, erase_cons_head] at herase

/-- The loop ends without an exception if packets can be evicted, or none has to be. -/
theorem evictLoop_spec (h : Indexed s P)
    (hroom : P.policy ≠ .persistent ∨ s.cache.length ≤ s.capacity) (k : ℤ) {fuel : ℕ}
    (hfuel : s.cache.length < fuel) :
    ∃ t, evictLoop P fuel k s = (t, true) ∧ Indexed t P ∧ t.capacity = s.capacity ∧
      t.cache.length = min s.cache.length s.capacity ∧
      t.nFreeEntries = s.nFreeEntries + (s.cache.length - s.capacity) ∧ t.cache <+ s.cache := by
  induction fuel generalizing s with
  | zero => omega
  | succ fuel ih =>
    unfold evictLoop
    by_cases hle : s.cache.length ≤ s.capacity
    · rw [if_pos hle]
      exact ⟨s, rfl, h, rfl, (min_eq_left hle).symm, by omega, Sublist.refl _⟩
    have hpolicy := hroom.resolve_right hle
    have hne : s.cache ≠ [] := length_pos_iff.mp (by omega)
    obtain ⟨t, hevict, ht, hcapacity, hlength, hfree, hsub⟩ := evictItem_spec h hpolicy hne
    obtain ⟨u, hloop, hu, hcapacity', hlength', hfree', hsub'⟩ :=
      ih ht (.inl hpolicy) (by omega)
    rw [if_neg hle, hevict]
    exact ⟨u, hloop, hu, hcapacity'.trans hcapacity, by omega, by omega, hsub'.trans hsub⟩

/-- Without evictions the failures that are allowed run out. -/
theorem evictLoop_persistent (hpolicy : P.policy = .persistent)
    (hlt : s.capacity < s.cache.length) {k : ℤ} {fuel : ℕ} (hfuel : k < fuel) (hk : 0 ≤ k) :
    evictLoop P fuel k s = (s, false) := by
  induction fuel generalizing k with
  | zero => omega
  | succ fuel ih =>
    unfold evictLoop
    rw [if_neg (by omega), evictItem_persistent hpolicy]
    by_cases hlast : k - 1 < 0
    · simp [hlast]
    · simp only [if_neg hlast]
      exact ih (by omega) (by omega)

/-- A capacity that the packets fit in, or can be made to fit in, is set. -/
theorem setCapacity_spec (h : Indexed s P) (hbalanced : s.Balanced) {capacity : ℕ}
    (hroom : P.policy ≠ .persistent ∨ s.cache.length ≤ capacity) :
    ∃ t, s.setCapacity P capacity = (t, true) ∧ Indexed t P ∧ t.Balanced ∧
      t.capacity = capacity ∧ t.cache.length = min s.cache.length capacity ∧
      t.cache <+ s.cache := by
  have hindexed : Indexed { s with capacity := capacity } P := ⟨h.nodup, h.perm⟩
  have hfuel : s.cache.length < 2 * s.cache.length + 2 := by omega
  obtain ⟨t, hloop, ht, hcapacity, hlength, hfree, hsub⟩ :=
    evictLoop_spec hindexed hroom (s.cache.length - capacity) hfuel
  simp only at hcapacity hlength hfree hsub
  have hset : s.setCapacity P capacity = ({ t with
      nFreeEntries := if s.capacity ≤ capacity then t.nFreeEntries + (capacity - s.capacity)
        else t.nFreeEntries - (s.capacity - capacity) }, true) := by
    unfold setCapacity
    rw [hloop]
    rfl
  refine ⟨_, hset, ⟨ht.nodup, ht.perm⟩, ?_, hcapacity, hlength, hsub⟩
  unfold Balanced at hbalanced ⊢
  simp only [hlength, hcapacity]
  split <;> omega

/-- A persistent storage with more packets than the new capacity throws. -/
theorem setCapacity_persistent (hpolicy : P.policy = .persistent) {capacity : ℕ}
    (hlt : capacity < s.cache.length) :
    s.setCapacity P capacity = ({ s with capacity := capacity }, false) := by
  have hloop : evictLoop P (2 * s.cache.length + 2) (s.cache.length - capacity)
      { s with capacity := capacity } = ({ s with capacity := capacity }, false) :=
    evictLoop_persistent hpolicy hlt (by omega) (by omega)
  unfold setCapacity
  rw [hloop]
  rfl

/-! ### What each call does -/

/-- The index holds the entries in use, and they make up the capacity with the pool. -/
structure Inv (s : InMemoryStorage) (P : Params) : Prop where
  indexed : s.Indexed P
  balanced : s.Balanced

/-- An access keeps the invariant. -/
theorem Inv.afterAccess (h : Inv s P) (hn : n ∈ s.cache.map Data.fullName) :
    Inv (s.afterAccess P n) P := by
  refine ⟨h.indexed.afterAccess hn, ?_⟩
  obtain ⟨index, heq⟩ := afterAccess_eq s P n
  rw [heq]
  exact h.balanced

/-- Giving up entries of packets keeps the invariant. -/
theorem Inv.eraseEntries {ds : List Data} (h : Inv s P) (hnodup : (ds.map Data.fullName).Nodup)
    (hmem : ∀ d ∈ ds, d.fullName ∈ s.cache.map Data.fullName) : Inv (s.eraseEntries P ds) P := by
  unfold InMemoryStorage.eraseEntries
  induction ds generalizing s with
  | nil => exact h
  | cons d ds ih =>
    obtain ⟨hnot, hrest⟩ := nodup_cons.mp hnodup
    have hcache : (s.beforeErase P d.fullName).cache = s.cache := by
      unfold beforeErase
      split <;> rfl
    have hfields : (s.beforeErase P d.fullName).nFreeEntries = s.nFreeEntries ∧
        (s.beforeErase P d.fullName).capacity = s.capacity := by
      unfold beforeErase
      split <;> exact ⟨rfl, rfl⟩
    have hlength := freeEntry_length (s.beforeErase P d.fullName) (n := d.fullName)
      (by rw [hcache]; exact hmem d mem_cons_self)
    refine ih ⟨h.indexed.eraseEntry d.fullName, ?_⟩ hrest fun x hx => ?_
    · have hsum := h.balanced
      unfold Balanced at hsum ⊢
      rw [hcache] at hlength
      change ((s.beforeErase P d.fullName).freeEntry d.fullName).cache.length +
        ((s.beforeErase P d.fullName).nFreeEntries + 1) =
          (s.beforeErase P d.fullName).capacity
      omega
    · change x.fullName ∈ map Data.fullName ((s.beforeErase P d.fullName).cache.eraseP
        fun y => y.fullName = d.fullName)
      rw [map_eraseP_name Data.fullName, hcache]
      have hne : x.fullName ≠ d.fullName := fun heq => hnot (heq ▸ mem_map_of_mem hx)
      exact (mem_erase_of_ne hne).mpr (hmem x (mem_cons_of_mem d hx))

/-- Halving keeps the invariant, since the packets fit into half of the capacity. -/
theorem Inv.shrink (h : Inv s P) : Inv (s.shrink P).1 P := by
  unfold InMemoryStorage.shrink
  split
  · rename_i hfew
    have hhalf : s.cache.length ≤ s.capacity / 2 := by
      have hsum := h.balanced
      unfold Balanced at hsum
      omega
    obtain ⟨t, hset, ht, hbalanced, -⟩ := setCapacity_spec h.indexed h.balanced (.inr hhalf)
    rw [hset]
    exact ⟨ht, hbalanced⟩
  · exact h

/-- Every `erase` keeps the invariant. -/
theorem Inv.erase (h : Inv s P) (n : Name) (isPrefix : Bool) : Inv (s.erase P n isPrefix).1 P := by
  unfold InMemoryStorage.erase
  split
  · have hsub := (takeWhile_sublist fun d : Data => n.isPrefixOf d.name).trans
      (dropWhile_sublist (below n) (l := s.cache))
    exact (h.eraseEntries ((hsub.map _).nodup h.indexed.nodup) fun d hd =>
      mem_map_of_mem (hsub.subset hd)).shrink
  split
  · exact h
  · rename_i d hd
    have hmem : ∀ x ∈ [d], x.fullName ∈ s.cache.map Data.fullName := by
      intro x hx
      rw [mem_singleton.mp hx]
      exact mem_map_of_mem (mem_of_find?_eq_some hd)
    have hnodup : ([d].map Data.fullName).Nodup := nodup_singleton _
    exact (h.eraseEntries hnodup hmem).shrink

/-- Every `find` keeps the invariant. -/
theorem Inv.find (h : Inv s P) (n : Name) : Inv (s.find P n).1 P := by
  unfold InMemoryStorage.find
  split
  · exact h
  rename_i d hd
  split
  · exact h.afterAccess (mem_map_of_mem (mem_of_find?_eq_some hd))
  · exact h

/-- With a free entry a new packet is stored. -/
theorem Inv.store (h : Inv s P) {d : Data} (hnew : d.fullName ∉ s.cache.map Data.fullName)
    (hroom : s.cache.length < s.capacity) :
    Inv (s.store P d).1 P ∧ d.fullName ∈ (s.store P d).1.cache.map Data.fullName := by
  have hsum := h.balanced
  unfold Balanced at hsum
  have hfree : s.nFreeEntries ≠ 0 := by omega
  have hperm : (s.cache.takeWhile (below d.fullName) ++
      d :: s.cache.dropWhile (below d.fullName)).Perm (d :: s.cache) := by
    refine perm_middle.trans (Perm.cons d ?_)
    rw [takeWhile_append_dropWhile]
  have hkeeps : ∀ t : InMemoryStorage, (t.afterInsert P d.fullName).cache = t.cache ∧
      (t.afterInsert P d.fullName).nFreeEntries = t.nFreeEntries ∧
      (t.afterInsert P d.fullName).capacity = t.capacity := by
    intro t
    unfold InMemoryStorage.afterInsert
    split <;> exact ⟨rfl, rfl, rfl⟩
  unfold InMemoryStorage.store
  rw [if_neg hfree]
  refine ⟨⟨h.indexed.afterInsert rfl (hperm.map _) hnew, ?_⟩, ?_⟩
  · unfold Balanced
    simp only [hkeeps, hperm.length_eq, length_cons]
    omega
  · simp only [hkeeps]
    exact (hperm.map Data.fullName).mem_iff.mpr mem_cons_self

/-- Without a free entry nothing is stored. -/
theorem store_of_full (hbalanced : s.Balanced) (hfull : s.capacity ≤ s.cache.length) (d : Data) :
    s.store P d = (s, false) := by
  have hfree : s.nFreeEntries = 0 := by
    unfold Balanced at hbalanced
    omega
  unfold store
  rw [if_pos hfree]

/-- At the limit a full storage takes a new packet exactly if the policy evicts one. -/
theorem Inv.insert_at_limit (h : Inv s P) {d : Data}
    (hnew : d.fullName ∉ s.cache.map Data.fullName) (hpos : 0 < s.capacity)
    (hfull : s.capacity ≤ s.cache.length) :
    let t := (((s.evictItem P).getD s).store P d).1
    (P.policy ≠ .persistent → Inv t P) ∧
      (d.fullName ∈ t.cache.map Data.fullName ↔ P.policy ≠ .persistent) := by
  have hsum := h.balanced
  unfold Balanced at hsum
  by_cases hpolicy : P.policy = .persistent
  · rw [evictItem_persistent hpolicy, Option.getD_none, store_of_full h.balanced hfull]
    simp [hpolicy, hnew]
  have hne : s.cache ≠ [] := length_pos_iff.mp (by omega)
  obtain ⟨t, hevict, ht, hcapacity, hlength, hfree, hsub⟩ := evictItem_spec h.indexed hpolicy hne
  have hinv : Inv t P := ⟨ht, by unfold Balanced; omega⟩
  have hstore := hinv.store (fun hmem => hnew ((hsub.map _).subset hmem)) (by omega)
  rw [hevict, Option.getD_some]
  exact ⟨fun _ => hstore.1, by simp [hpolicy, hstore.2]⟩

/-- A new packet is stored, and the invariant kept, exactly under the condition. -/
theorem Inv.insert (h : Inv s P) (hlimit : 0 < P.limit) (d : Data) :
    (s.EventOk P (.insert d) → Inv (s.insert P d).1 P) ∧
      (d.fullName ∈ (s.insert P d).1.cache.map Data.fullName ↔ s.EventOk P (.insert d)) := by
  unfold InMemoryStorage.insert EventOk
  by_cases hnew : d.fullName ∈ s.cache.map Data.fullName
  · rw [if_pos ((any_fullName_iff s d.fullName).mpr hnew)]
    exact ⟨fun _ => h, by simp [hnew]⟩
  rw [if_neg (mt (any_fullName_iff s d.fullName).mp hnew)]
  simp only [hnew, false_or]
  by_cases hroom : s.cache.length < s.capacity
  · -- there is a free entry
    have hstore := h.store hnew hroom
    have hnot : s.isFull = false := by simpa [isFull] using hroom
    simp only [hnot, Bool.false_and, Bool.false_eq_true, if_false, Bool.not_true, hroom, true_or,
      iff_true]
    exact ⟨fun _ => hstore.1, hstore.2⟩
  have hfull := not_lt.mp hroom
  have hisFull : s.isFull = true := decide_eq_true hfull
  simp only [hroom, false_or]
  by_cases hat : P.limit = s.capacity
  · -- at the limit a packet is evicted, if the policy does that
    simp only [hisFull, hat, beq_self_eq_true, Bool.not_true, Bool.and_false, Bool.and_true,
      Bool.false_eq_true, if_false, if_true, lt_irrefl, and_false, true_and, false_or]
    exact h.insert_at_limit hnew (by omega) hfull
  -- below the limit the capacity is doubled, beyond the limit it is reduced
  have hsum := h.balanced
  unfold Balanced at hsum
  have hbeq : (P.limit == s.capacity) = false := beq_eq_false_iff_ne.mpr hat
  simp only [hisFull, hbeq, Bool.not_false, Bool.and_self, if_true, Bool.and_false,
    Bool.false_eq_true, if_false, Ne.symm hat, false_and, or_false]
  by_cases hset : P.policy ≠ .persistent ∨ s.cache.length ≤ min (2 * s.capacity) P.limit
  · obtain ⟨t, hset, ht, hbalanced, hcapacity, hlength, hsub⟩ :=
      setCapacity_spec h.indexed h.balanced hset
    have hnew' : d.fullName ∉ t.cache.map Data.fullName :=
      fun hmem => hnew ((hsub.map _).subset hmem)
    simp only [hset, Bool.not_true, Bool.false_eq_true, if_false]
    by_cases hdouble : 0 < s.capacity ∧ s.capacity < P.limit
    · have hstore := (Inv.mk ht hbalanced).store hnew' (by omega)
      exact ⟨fun _ => hstore.1, by simp [hdouble, hstore.2]⟩
    · rw [store_of_full hbalanced (by omega)]
      simp [hdouble, hnew']
  · obtain ⟨hpolicy, hlt⟩ := not_or.mp hset
    rw [setCapacity_persistent (not_not.mp hpolicy) (by omega)]
    have hdouble : ¬ (0 < s.capacity ∧ s.capacity < P.limit) := by omega
    simp [hdouble, hnew]

/-! ### Runs -/

/-- A call that meets the condition keeps the invariant. -/
theorem Inv.step (h : Inv s P) (hlimit : 0 < P.limit) {ev : Event} (hok : s.EventOk P ev) :
    Inv (s.step P ev) P := by
  cases ev with
  | insert d => exact (h.insert hlimit d).1 hok
  | erase n isPrefix => exact h.erase n isPrefix
  | setCapacity capacity =>
    obtain ⟨t, hset, ht, hbalanced, -⟩ := setCapacity_spec h.indexed h.balanced hok
    change Inv (s.setCapacity P capacity).1 P
    rw [hset]
    exact ⟨ht, hbalanced⟩
  | find n => exact h.find n
  | findInterest selected =>
    unfold InMemoryStorage.step
    simp only
    split
    · exact h
    · rename_i d hd
      obtain ⟨i, -, hi⟩ := Option.bind_eq_some_iff.mp hd
      exact h.afterAccess (mem_map_of_mem (mem_of_getElem? hi))

/-- A call is sound exactly if it meets the condition. -/
theorem Inv.sound_iff (h : Inv s P) (hlimit : 0 < P.limit) (ev : Event) :
    Sound s P ev ↔ s.EventOk P ev := by
  constructor
  · intro hsound
    cases ev with
    | insert d => exact (h.insert hlimit d).2.mp (hsound.stored d rfl)
    | setCapacity capacity =>
      by_contra hnot
      obtain ⟨hpolicy, hlt⟩ := not_or.mp hnot
      have hbalanced := hsound.balanced
      change (s.setCapacity P capacity).1.Balanced at hbalanced
      rw [setCapacity_persistent (not_not.mp hpolicy) (by omega)] at hbalanced
      unfold Balanced at hbalanced
      simp only at hbalanced
      omega
    | erase n isPrefix => trivial
    | find n => trivial
    | findInterest selected => trivial
  · intro hok
    refine ⟨(h.step hlimit hok).balanced, ?_⟩
    rintro d rfl
    exact (h.insert hlimit d).2.mpr hok

/-- A new storage has the invariant. -/
theorem inv_create (P : Params) : Inv (create P.limit) P :=
  ⟨⟨nodup_nil, fun _ => Perm.refl _⟩, by simp [Balanced, create]⟩

/-- In a run from a new storage every call is sound exactly if every call meets the condition in the
state before it. -/
theorem sound_iff_runOk (hlimit : 0 < P.limit) (evs : List Event) :
    Runs.Along (step · P) (Sound · P) (create P.limit) evs ↔
      Runs.Along (step · P) (EventOk · P) (create P.limit) evs := by
  have hinv := inv_create P
  generalize create P.limit = s at hinv
  induction evs generalizing s with
  | nil => exact Iff.rfl
  | cons ev evs ih =>
    unfold Runs.Along
    rw [hinv.sound_iff hlimit ev]
    exact and_congr_right fun hok => ih _ (hinv.step hlimit hok)

/-- A packet that is stored, not found by another name, and erased after the capacity was changed;
the last call is one too many for the capacity 0. -/
theorem sound_iff_runOk_smallStorage :
    Runs.Along (step · ⟨3, .lru⟩) (Sound · ⟨3, .lru⟩) (create 3)
      [.insert ⟨Name.encoded [], List.replicate 32 0, length_replicate, -1, none, false⟩, .find [],
        .setCapacity 2, .erase [.generic [0x41]] true, .setCapacity 0] ∧
    ¬ Runs.Along (step · ⟨3, .lru⟩) (Sound · ⟨3, .lru⟩) (create 3)
      [.setCapacity 0,
        .insert ⟨Name.encoded [], List.replicate 32 0, length_replicate, -1, none, false⟩] :=
  ⟨(sound_iff_runOk (P := ⟨3, .lru⟩) (by decide) _).mpr (by decide +kernel),
    fun h => absurd ((sound_iff_runOk (P := ⟨3, .lru⟩) (by decide) _).mp h) (by decide +kernel)⟩

/-- With the limit 1, erasing from the empty storage makes the capacity 0, and the packet that is
inserted then is not stored. -/
theorem insert_finds_no_entry :
    (create 1).step ⟨1, .fifo⟩ (.erase [] true) = ⟨[], 0, 0, []⟩ ∧
      (⟨[], 0, 0, []⟩ : InMemoryStorage).insert ⟨1, .fifo⟩
        ⟨Name.encoded [], List.replicate 32 0, length_replicate, -1, none, false⟩ =
          (⟨[], 0, 0, []⟩, false) := by
  decide +kernel

end InMemoryStorage

end IcnDemo
