import Bes.Dispatch.Util
import Bes.Lib.Lru
import Bes.Lib.OrderedMap
import Bes.Lib.Rounding

/-! `ObjMemCache`, two maps that an age counter links. It is an LRU cache. -/
namespace Bes.Dap
open Dispatch Lib List

variable {α : Type*}

/-- A fraction acts on a count of entries by their product, truncated to a `size_t`. Where the
product is not in the range of that type C++ leaves the result open, so it may be any number. -/
structure Fraction where
  product : Nat → Nat

/-- A `float`, whose products are rounded. -/
def Fraction.ofFloat (fraction : ℚ) : Fraction where
  product := fun count => ⌊Rounding.roundTo 24 (Rounding.roundTo 24 count * fraction)⌋.toNat

structure Entry (α : Type*) where
  obj : α
  name : Str

def contents (cache : OrderedMap Nat (Entry α)) : List (Str × α) :=
  cache.entries.map fun entry => (entry.2.name, entry.2.obj)

def Inverse (cache : OrderedMap Nat (Entry α)) (index : OrderedMap Str Nat) : Prop :=
  ∀ key count, index.find key = some count ↔ ∃ obj, cache.find count = some ⟨obj, key⟩

structure ObjMemCache (α : Type*) where
  age : Nat
  entriesThreshold : Nat
  purgeThreshold : Fraction
  cache : OrderedMap Nat (Entry α)
  index : OrderedMap Str Nat

inductive Inconsistency where
  | assertion
  | memoryCache

namespace ObjMemCache

def new (entriesThreshold : Nat) (purgeThreshold : Fraction) : ObjMemCache α :=
  ⟨0, entriesThreshold, purgeThreshold, .empty, .empty⟩

/-- The constructor without arguments: the caller purges, and 0.2 is not a `float` exactly. -/
def default : ObjMemCache α := new 0 (.ofFloat (Rounding.roundTo 24 (1 / 5)))

/-- `++d_age`, an `unsigned long long`. -/
def older (self : ObjMemCache α) : ObjMemCache α := { self with age := (self.age + 1) % 2 ^ 64 }

/-- The age as an `unsigned int`, the key of the maps. -/
def count (self : ObjMemCache α) : Nat := self.age % 2 ^ 32

/-- The loop of `purge`. Its counter has 32 bits, as the keys of the map have, so the map is
empty before it starts again. -/
def purgeLoop : Nat → ObjMemCache α → Except Inconsistency (ObjMemCache α)
  | 0, self => .ok self
  | numRemove + 1, self =>
    match self.cache.entries with
    | [] => .ok self
    | (count, entry) :: _ =>
      match self.index.find entry.name with
      | none => .error .assertion
      | some _ =>
        purgeLoop numRemove { self with
          cache := self.cache.erase count
          index := self.index.erase entry.name }

def purge (self : ObjMemCache α) (fraction : Fraction) : Except Inconsistency (ObjMemCache α) :=
  purgeLoop (fraction.product self.cache.size) self

/-- The test in `add`. A threshold of zero leaves purging to the caller. -/
def purgeOverThreshold (self : ObjMemCache α) : Except Inconsistency (ObjMemCache α) :=
  if self.entriesThreshold ≠ 0 ∧ self.entriesThreshold < self.cache.size then
    self.purge self.purgeThreshold
  else .ok self

def add (self : ObjMemCache α) (obj : α) (key : Str) : Except Inconsistency (ObjMemCache α) :=
  match self.older.purgeOverThreshold with
  | .error failure => .error failure
  | .ok self =>
    .ok { self with
      index := self.index.insert key self.count
      cache := self.cache.insert self.count ⟨obj, key⟩ }

def remove (self : ObjMemCache α) (key : Str) : Except Inconsistency (ObjMemCache α) :=
  match self.index.find key with
  | none => .ok self
  | some count =>
    match self.cache.find count with
    | none => .error .assertion
    | some _ => .ok { self with index := self.index.erase key, cache := self.cache.erase count }

def get (self : ObjMemCache α) (key : Str) : Except Inconsistency (Option α × ObjMemCache α) :=
  match self.index.find key with
  | none => .ok (none, self)
  | some count =>
    match self.cache.find count with
    | none => .error .memoryCache
    | some entry =>
      let aged := self.older
      .ok (some entry.obj, { aged with
        cache := (self.cache.erase count).insert aged.count entry
        index := (self.index.erase key).insert key aged.count })

end ObjMemCache

inductive Op (α : Type*) where
  | add (obj : α) (key : Str)
  | get (key : Str)
  | remove (key : Str)
  | purge (fraction : Fraction)

namespace ObjMemCache

def step (self : ObjMemCache α) : Op α → Except Inconsistency (ObjMemCache α)
  | .add obj key => self.add obj key
  | .get key => (self.get key).map Prod.snd
  | .remove key => self.remove key
  | .purge fraction => self.purge fraction

def run (self : ObjMemCache α) : List (Op α) → Except Inconsistency (ObjMemCache α)
  | [] => .ok self
  | op :: ops =>
    match self.step op with
    | .error failure => .error failure
    | .ok next => next.run ops

def Absent (self : ObjMemCache α) : Op α → Prop
  | .add _ key => self.index.find key = none
  | .get _ => True
  | .remove _ => True
  | .purge _ => True

def AddsAbsent (self : ObjMemCache α) : List (Op α) → Prop
  | [] => True
  | op :: ops =>
    self.Absent op ∧
      match self.step op with
      | .error _ => True
      | .ok next => next.AddsAbsent ops

end ObjMemCache

def lruKept (entriesThreshold : Nat) (purgeThreshold : Fraction) (lru : Lru Str α) : Lru Str α :=
  if entriesThreshold ≠ 0 ∧ entriesThreshold < lru.uses.length then
    lru.evict (purgeThreshold.product lru.uses.length)
  else lru

def lruStep (entriesThreshold : Nat) (purgeThreshold : Fraction) (lru : Lru Str α) :
    Op α → Lru Str α
  | .add obj key => (lruKept entriesThreshold purgeThreshold lru).touch key obj
  | .get key =>
    match lru.find key with
    | none => lru.tick
    | some obj => lru.touch key obj
  | .remove key => (lru.remove key).tick
  | .purge fraction => (lru.evict (fraction.product lru.uses.length)).tick

def lruRun (entriesThreshold : Nat) (purgeThreshold : Fraction) (ops : List (Op α)) : Lru Str α :=
  ops.foldl (lruStep entriesThreshold purgeThreshold) .empty

theorem now_lruKept (entriesThreshold : Nat) (purgeThreshold : Fraction) (lru : Lru Str α) :
    (lruKept entriesThreshold purgeThreshold lru).now = lru.now := by
  unfold lruKept
  split <;> rfl

theorem uses_lruKept (entriesThreshold : Nat) (purgeThreshold : Fraction) (lru : Lru Str α) :
    ∃ count, (lruKept entriesThreshold purgeThreshold lru).uses = lru.uses.drop count := by
  unfold lruKept
  split
  · exact ⟨_, lru.uses_evict _⟩
  · exact ⟨0, rfl⟩

theorem now_lruStep (entriesThreshold : Nat) (purgeThreshold : Fraction) (lru : Lru Str α)
    (op : Op α) : (lruStep entriesThreshold purgeThreshold lru op).now = lru.now + 1 := by
  cases op with
  | add obj key => exact congrArg (· + 1) (now_lruKept ..)
  | get key =>
    unfold lruStep
    dsimp only
    split <;> rfl
  | remove key => rfl
  | purge fraction => rfl

section

variable {cache : OrderedMap Nat (Entry α)} {index : OrderedMap Str Nat} {key : Str} {count : Nat}
  {obj : α}

theorem Inverse.erase (hinv : Inverse cache index) (hfound : index.find key = some count) :
    Inverse (cache.erase count) (index.erase key) := by
  intro other age
  obtain ⟨held, hheld⟩ := (hinv key count).mp hfound
  by_cases hkey : other = key
  · subst hkey
    rw [OrderedMap.find_erase_self]
    refine ⟨fun hnone => by contradiction, ?_⟩
    rintro ⟨obj, hobj⟩
    by_cases hage : age = count
    · rw [hage, OrderedMap.find_erase_self] at hobj
      contradiction
    · rw [OrderedMap.find_erase_of_ne hage] at hobj
      have hsame := (hinv other age).mpr ⟨obj, hobj⟩
      rw [hfound] at hsame
      exact absurd (Option.some.inj hsame).symm hage
  · rw [OrderedMap.find_erase_of_ne hkey, hinv other age]
    by_cases hage : age = count
    · -- the entry of this age has the other name
      rw [hage, OrderedMap.find_erase_self, hheld]
      simp [Ne.symm hkey]
    · rw [OrderedMap.find_erase_of_ne hage]

theorem Inverse.put (hinv : Inverse cache index) (hkey : index.find key = none)
    (hcnt : cache.find count = none) (obj : α) :
    Inverse (cache.put count ⟨obj, key⟩) (index.put key count) := by
  intro other age
  by_cases hother : other = key
  · subst hother
    rw [OrderedMap.find_put_self]
    by_cases hage : age = count
    · subst hage
      rw [OrderedMap.find_put_self]
      exact ⟨fun _ => ⟨obj, rfl⟩, fun _ => rfl⟩
    · rw [OrderedMap.find_put_of_ne hage, ← hinv other age, hkey]
      simp [Ne.symm hage]
  · rw [OrderedMap.find_put_of_ne hother, hinv other age]
    by_cases hage : age = count
    · subst hage
      rw [OrderedMap.find_put_self, hcnt]
      simp [Ne.symm hother]
    · rw [OrderedMap.find_put_of_ne hage]

theorem Inverse.mem_contents (hinv : Inverse cache index) :
    (key, obj) ∈ contents cache ↔ ∃ count, index.find key = some count
      ∧ cache.find count = some ⟨obj, key⟩ := by
  unfold contents
  rw [mem_map]
  constructor
  · rintro ⟨⟨count, entry⟩, hent, heq⟩
    obtain ⟨rfl, rfl⟩ := Prod.mk.inj heq
    have hfound := OrderedMap.find_eq_some_iff.mpr hent
    exact ⟨count, (hinv _ _).mpr ⟨_, hfound⟩, hfound⟩
  · rintro ⟨count, -, hfound⟩
    exact ⟨(count, ⟨obj, key⟩), OrderedMap.find_eq_some_iff.mp hfound, rfl⟩

theorem Inverse.contents_erase (hinv : Inverse cache index) (hfound : index.find key = some count) :
    contents (cache.erase count) = (contents cache).filter fun entry => decide (entry.1 ≠ key) := by
  obtain ⟨held, hheld⟩ := (hinv key count).mp hfound
  unfold contents OrderedMap.erase
  rw [filter_map]
  apply congrArg (map _)
  apply filter_congr
  intro entry hent
  have hent := OrderedMap.find_eq_some_iff.mpr hent
  apply decide_eq_decide.mpr
  apply not_congr
  constructor
  · intro hcnt
    rw [hcnt, hheld] at hent
    exact congrArg Entry.name (Option.some.inj hent).symm
  · intro hname
    have hsame := (hinv entry.2.name entry.1).mpr ⟨entry.2.obj, hent⟩
    have hname : entry.2.name = key := hname
    rw [hname, hfound] at hsame
    exact (Option.some.inj hsame).symm

theorem contents_put (hlt : ∀ entry ∈ cache.entries, entry.1 < count) (entry : Entry α) :
    contents (cache.put count entry) = contents cache ++ [(entry.name, entry.obj)] := by
  unfold contents
  rw [OrderedMap.entries_put_of_forall_lt hlt, map_append, map_singleton]

end

/-- The two maps hold these entries, the oldest one first, and no age is beyond `newest`. -/
structure Holds (cache : OrderedMap Nat (Entry α)) (index : OrderedMap Str Nat) (newest : Nat)
    (entries : List (Str × α)) : Prop where
  inverse : Inverse cache index
  contents_eq : contents cache = entries
  count_le : ∀ entry ∈ cache.entries, entry.1 ≤ newest

namespace Holds

variable {cache : OrderedMap Nat (Entry α)} {index : OrderedMap Str Nat} {count : Nat}
  {entries : List (Str × α)} {key : Str}

theorem empty : Holds (.empty : OrderedMap Nat (Entry α)) .empty 0 [] where
  inverse := by
    intro key count
    simp [OrderedMap.find, OrderedMap.empty]
  contents_eq := rfl
  count_le := fun entry hent => absurd hent not_mem_nil

theorem erase (hholds : Holds cache index newest entries) (hfound : index.find key = some count) :
    Holds (cache.erase count) (index.erase key) newest
      (entries.filter fun entry => decide (entry.1 ≠ key)) where
  inverse := hholds.inverse.erase hfound
  contents_eq := by rw [← hholds.contents_eq]; exact hholds.inverse.contents_erase hfound
  count_le := fun entry hent => hholds.count_le entry ((OrderedMap.mem_erase entry).mp hent).1

theorem find_eq_none_iff (hholds : Holds cache index newest entries) :
    index.find key = none ↔ ∀ entry ∈ entries, entry.1 ≠ key := by
  constructor
  · intro hfound entry hent heq
    rw [← hholds.contents_eq] at hent
    obtain ⟨count, hcnt, -⟩ := hholds.inverse.mem_contents.mp hent
    rw [heq, hfound] at hcnt
    contradiction
  · intro hne
    rw [Option.eq_none_iff_forall_ne_some]
    intro count hcnt
    obtain ⟨obj, hobj⟩ := (hholds.inverse key count).mp hcnt
    have hmem := hholds.inverse.mem_contents.mpr ⟨count, hcnt, hobj⟩
    rw [hholds.contents_eq] at hmem
    exact hne _ hmem rfl

theorem filter_eq_self (hholds : Holds cache index newest entries) (hfound : index.find key = none) :
    (entries.filter fun entry => decide (entry.1 ≠ key)) = entries := by
  rw [List.filter_eq_self]
  exact fun entry hent => decide_eq_true (hholds.find_eq_none_iff.mp hfound entry hent)

theorem insert (hholds : Holds cache index newest entries) (hcnt : newest < count)
    (hkey : index.find key = none) (obj : α) :
    Holds (cache.insert count ⟨obj, key⟩) (index.insert key count) count
      (entries ++ [(key, obj)]) := by
  have hlt : ∀ entry ∈ cache.entries, entry.1 < count :=
    fun entry hent => (hholds.count_le entry hent).trans_lt hcnt
  have hfre : cache.find count = none := by
    rw [OrderedMap.find_eq_none_iff]
    exact fun entry hent => (hlt entry hent).ne
  rw [OrderedMap.insert_of_find_none hkey, OrderedMap.insert_of_find_none hfre]
  refine ⟨hholds.inverse.put hkey hfre obj, ?_, ?_⟩
  · rw [← hholds.contents_eq]
    exact contents_put hlt ⟨obj, key⟩
  · intro entry hent
    cases (OrderedMap.mem_put entry).mp hent with
    | inl hnew => rw [hnew]
    | inr hold => exact (hlt entry hold.1).le

theorem purgeLoop (hholds : Holds mem.cache mem.index newest entries) (numRemove : Nat) :
    ∃ cache index, ObjMemCache.purgeLoop numRemove mem
        = .ok { mem with cache := cache, index := index }
      ∧ Holds cache index newest (entries.drop numRemove) := by
  induction numRemove generalizing mem entries with
  | zero => exact ⟨mem.cache, mem.index, rfl, hholds⟩
  | succ numRemove ih =>
    cases henr : mem.cache.entries with
    | nil =>
      have hnil : entries = [] := by
        rw [← hholds.contents_eq, contents, henr, map_nil]
      refine ⟨mem.cache, mem.index, ?_, ?_⟩
      · rw [ObjMemCache.purgeLoop, henr]
      · rw [hnil, drop_nil, ← hnil]
        exact hholds
    | cons first rest =>
      have hfirst : mem.cache.find first.1 = some first.2 := by
        rw [OrderedMap.find_eq_some_iff, henr]
        exact mem_cons_self
      have hidx := (hholds.inverse first.2.name first.1).mpr ⟨first.2.obj, hfirst⟩
      have hera := hholds.erase hidx
      have hrest : contents (mem.cache.erase first.1) = entries.drop 1 := by
        rw [← hholds.contents_eq, contents, contents, henr, OrderedMap.entries_erase_of_cons henr]
        rfl
      rw [← hera.contents_eq, hrest] at hera
      obtain ⟨cache, index, hloop, hnext⟩ := @ih _ { mem with
        cache := mem.cache.erase first.1, index := mem.index.erase first.2.name } hera
      refine ⟨cache, index, ?_, ?_⟩
      · rw [ObjMemCache.purgeLoop, henr]
        dsimp only
        rw [hidx]
        exact hloop
      · rw [drop_drop, Nat.add_comm] at hnext
        exact hnext

end Holds

structure Represents (entriesThreshold : Nat) (purgeThreshold : Fraction) (mem : ObjMemCache α)
    (lru : Lru Str α) : Prop where
  threshold_eq : mem.entriesThreshold = entriesThreshold
  fraction_eq : mem.purgeThreshold = purgeThreshold
  holds : Holds mem.cache mem.index mem.age lru.contents
  age_le : mem.age ≤ lru.now

namespace Represents

variable {entriesThreshold : Nat} {purgeThreshold : Fraction} {mem : ObjMemCache α}
  {lru : Lru Str α} {key : Str} {count : Nat}

theorem new (entriesThreshold : Nat) (purgeThreshold : Fraction) :
    Represents entriesThreshold purgeThreshold
      (.new entriesThreshold purgeThreshold : ObjMemCache α) .empty where
  threshold_eq := rfl
  fraction_eq := rfl
  holds := .empty
  age_le := Nat.le_refl 0

section

variable (hrep : Represents entriesThreshold purgeThreshold mem lru)

include hrep

theorem size_eq : mem.cache.size = lru.uses.length := by
  have hlen := congrArg length hrep.holds.contents_eq
  unfold contents Lru.contents at hlen
  rwa [length_map, length_map] at hlen

theorem tick : Represents entriesThreshold purgeThreshold mem lru.tick :=
  { hrep with age_le := Nat.le_succ_of_le hrep.age_le }

theorem find_of_absent (hidx : mem.index.find key = none) : lru.find key = none := by
  rw [Option.eq_none_iff_forall_ne_some]
  intro obj hfound
  exact hrep.holds.find_eq_none_iff.mp hidx _ (Lru.find_eq_some_iff.mp hfound) rfl

theorem find_of_cached (hidx : mem.index.find key = some count) :
    ∃ obj, mem.cache.find count = some ⟨obj, key⟩ ∧ lru.find key = some obj := by
  obtain ⟨obj, hobj⟩ := (hrep.holds.inverse key count).mp hidx
  refine ⟨obj, hobj, ?_⟩
  rw [Lru.find_eq_some_iff, ← hrep.holds.contents_eq]
  exact hrep.holds.inverse.mem_contents.mpr ⟨count, hidx, hobj⟩

theorem age_older (hnow : lru.now + 1 < 2 ^ 32) :
    mem.older.age = mem.age + 1 ∧ mem.older.count = mem.older.age := by
  have hage := hrep.age_le
  unfold ObjMemCache.count ObjMemCache.older
  dsimp only
  omega

theorem get_find (key : Str) : ∃ next, mem.get key = .ok (lru.find key, next) := by
  unfold ObjMemCache.get
  cases hidx : mem.index.find key with
  | none =>
    rw [hrep.find_of_absent hidx]
    exact ⟨mem, rfl⟩
  | some count =>
    obtain ⟨obj, hobj, hfound⟩ := hrep.find_of_cached hidx
    dsimp only
    rw [hobj, hfound]
    exact ⟨_, rfl⟩

theorem get (hnow : lru.now + 1 < 2 ^ 32) (key : Str) :
    ∃ found next, mem.get key = .ok (found, next) ∧ Represents entriesThreshold purgeThreshold next
        (lruStep entriesThreshold purgeThreshold lru (.get key)) := by
  unfold ObjMemCache.get
  cases hidx : mem.index.find key with
  | none =>
    have hstep : lruStep entriesThreshold purgeThreshold lru (.get key) = lru.tick := by
      unfold lruStep
      dsimp only
      rw [hrep.find_of_absent hidx]
    rw [hstep]
    exact ⟨none, mem, rfl, hrep.tick⟩
  | some count =>
    obtain ⟨obj, hobj, hfound⟩ := hrep.find_of_cached hidx
    obtain ⟨hage, hcnt⟩ := hrep.age_older hnow
    have hstep : lruStep entriesThreshold purgeThreshold lru (.get key) = lru.touch key obj := by
      unfold lruStep
      dsimp only
      rw [hfound]
    dsimp only
    rw [hobj, hstep]
    refine ⟨_, _, rfl, hrep.threshold_eq, hrep.fraction_eq, ?_, ?_⟩
    · rw [Lru.contents_touch, hcnt]
      apply (hrep.holds.erase hidx).insert
      · omega
      · exact OrderedMap.find_erase_self _ _
    · exact hage.le.trans (Nat.succ_le_succ hrep.age_le)

theorem remove (key : Str) : ∃ next, mem.remove key = .ok next
      ∧ Represents entriesThreshold purgeThreshold next (lru.remove key) := by
  unfold ObjMemCache.remove
  cases hidx : mem.index.find key with
  | none =>
    refine ⟨mem, rfl, { hrep with holds := ?_ }⟩
    rw [Lru.contents_remove, hrep.holds.filter_eq_self hidx]
    exact hrep.holds
  | some count =>
    obtain ⟨obj, hobj, -⟩ := hrep.find_of_cached hidx
    dsimp only
    rw [hobj]
    refine ⟨_, rfl, hrep.threshold_eq, hrep.fraction_eq, ?_, hrep.age_le⟩
    rw [Lru.contents_remove]
    exact hrep.holds.erase hidx

theorem purge (fraction : Fraction) : ∃ next, mem.purge fraction = .ok next
      ∧ Represents entriesThreshold purgeThreshold next
        (lru.evict (fraction.product lru.uses.length)) := by
  obtain ⟨cache, index, hloop, hholds⟩ := hrep.holds.purgeLoop (fraction.product lru.uses.length)
  refine ⟨{ mem with cache := cache, index := index }, ?_, hrep.threshold_eq,
    hrep.fraction_eq, ?_, hrep.age_le⟩
  · unfold ObjMemCache.purge
    rw [hrep.size_eq]
    exact hloop
  · rw [Lru.contents_evict]
    exact hholds

theorem purgeOverThreshold : ∃ cache index, mem.older.purgeOverThreshold
        = .ok { mem.older with cache := cache, index := index }
      ∧ Holds cache index mem.age (lruKept entriesThreshold purgeThreshold lru).contents := by
  have hsize : mem.older.cache.size = lru.uses.length := hrep.size_eq
  unfold ObjMemCache.purgeOverThreshold lruKept
  rw [hsize, show mem.older.entriesThreshold = entriesThreshold from hrep.threshold_eq,
    show mem.older.purgeThreshold = purgeThreshold from hrep.fraction_eq]
  split
  · have hholds : Holds mem.older.cache mem.older.index mem.age lru.contents := hrep.holds
    unfold ObjMemCache.purge
    rw [hsize, Lru.contents_evict]
    exact hholds.purgeLoop _
  · exact ⟨mem.cache, mem.index, rfl, hrep.holds⟩

theorem add (hnow : lru.now + 1 < 2 ^ 32) (habs : mem.index.find key = none) (obj : α) :
    ∃ next, mem.add obj key = .ok next ∧ Represents entriesThreshold purgeThreshold next
        (lruStep entriesThreshold purgeThreshold lru (.add obj key)) := by
  obtain ⟨hage, hcnt⟩ := hrep.age_older hnow
  obtain ⟨cache, index, hpurge, hholds⟩ := hrep.purgeOverThreshold
  have hfound : index.find key = none := by
    rw [hholds.find_eq_none_iff]
    intro entry hent
    obtain ⟨use, huse, rfl⟩ := mem_map.mp hent
    obtain ⟨count, hdrop⟩ := uses_lruKept entriesThreshold purgeThreshold lru
    rw [hdrop] at huse
    exact hrep.holds.find_eq_none_iff.mp habs _ (mem_map_of_mem (mem_of_mem_drop huse))
  refine ⟨{ mem.older with
    index := index.insert key mem.older.count
    cache := cache.insert mem.older.count ⟨obj, key⟩ }, ?_, hrep.threshold_eq,
    hrep.fraction_eq, ?_, ?_⟩
  · unfold ObjMemCache.add
    rw [hpurge]
    rfl
  · dsimp only [lruStep]
    rw [Lru.contents_touch, hholds.filter_eq_self hfound, hcnt]
    exact hholds.insert (by omega) hfound obj
  · dsimp only [lruStep, Lru.touch]
    rw [now_lruKept, hage]
    exact Nat.succ_le_succ hrep.age_le

theorem step (hnow : lru.now + 1 < 2 ^ 32) (op : Op α) (habs : mem.Absent op) :
    ∃ next, mem.step op = .ok next ∧ Represents entriesThreshold purgeThreshold next
        (lruStep entriesThreshold purgeThreshold lru op) := by
  cases op with
  | add obj key => exact hrep.add hnow habs obj
  | get key =>
    obtain ⟨found, next, hget, hnext⟩ := hrep.get hnow key
    refine ⟨next, ?_, hnext⟩
    unfold ObjMemCache.step
    dsimp only
    rw [hget]
    rfl
  | remove key =>
    obtain ⟨next, hrmv, hnext⟩ := hrep.remove key
    exact ⟨next, hrmv, hnext.tick⟩
  | purge fraction =>
    obtain ⟨next, hpurge, hnext⟩ := hrep.purge fraction
    exact ⟨next, hpurge, hnext.tick⟩

theorem run (ops : List (Op α)) (hnow : lru.now + ops.length < 2 ^ 32) (habs : mem.AddsAbsent ops) :
    ∃ next, mem.run ops = .ok next ∧ Represents entriesThreshold purgeThreshold next
        (ops.foldl (lruStep entriesThreshold purgeThreshold) lru) := by
  induction ops generalizing mem lru with
  | nil => exact ⟨mem, rfl, hrep⟩
  | cons op ops ih =>
    rw [length_cons] at hnow
    obtain ⟨hop, hops⟩ := habs
    obtain ⟨next, hstep, hnext⟩ := hrep.step (by omega) op hop
    rw [hstep] at hops
    unfold ObjMemCache.run
    rw [hstep]
    refine ih hnext ?_ hops
    rw [now_lruStep]
    omega

end

end Represents

def Op.uses (key : Str) : Op α → Bool
  | .add _ name => decide (name = key)
  | .get name => decide (name = key)
  | .remove _ => false
  | .purge _ => false

def Op.added (key : Str) : Op α → Option α
  | .add obj name => if name = key then some obj else none
  | .get _ => none
  | .remove _ => none
  | .purge _ => none

def lastAdded (ops : List (Op α)) (key : Str) : Option α := ops.reverse.findSome? (Op.added key)

/-- The number of the last call that was an `add` or a `get` of the key, counted from one. -/
def lastUse (ops : List (Op α)) (key : Str) : Nat :=
  ops.length - ops.reverse.findIdx (Op.uses key)

section

variable {key : Str}

theorem lastAdded_append (ops : List (Op α)) (op : Op α) (key : Str) :
    lastAdded (ops ++ [op]) key = (op.added key).or (lastAdded ops key) := by
  unfold lastAdded
  rw [reverse_append, reverse_singleton, singleton_append, findSome?_cons]
  cases op.added key <;> rfl

theorem lastUse_append (ops : List (Op α)) (op : Op α) (key : Str) :
    lastUse (ops ++ [op]) key = if op.uses key then ops.length + 1 else lastUse ops key := by
  unfold lastUse
  rw [reverse_append, reverse_singleton, singleton_append, findIdx_cons,
    length_append, length_singleton]
  cases op.uses key with
  | true => rfl
  | false => exact Nat.add_sub_add_right ..

def Remembers (ops : List (Op α)) (lru : Lru Str α) : Prop :=
  ∀ use ∈ lru.uses, lastAdded ops use.key = some use.value ∧ lastUse ops use.key = use.time

theorem Remembers.append_of_not_uses (hrem : Remembers ops lru)
    (huse : use ∈ lru.uses) (hop : op.uses use.key = false) :
    lastAdded (ops ++ [op]) use.key = some use.value
      ∧ lastUse (ops ++ [op]) use.key = use.time := by
  have hadd : op.added use.key = none := by
    cases op with
    | add obj name => exact if_neg (of_decide_eq_false hop)
    | get name => rfl
    | remove name => rfl
    | purge fraction => rfl
  rw [lastAdded_append, lastUse_append, hadd, hop]
  exact hrem use huse

theorem Remembers.touch {kept : Lru Str α} (hrem : Remembers ops lru)
    (hkept : ∀ use ∈ kept.uses, use ∈ lru.uses) (hnow : kept.now = ops.length)
    (hop : ∀ name, op.uses name = decide (key = name))
    (hadd : lastAdded (ops ++ [op]) key = some obj) :
    Remembers (ops ++ [op]) (kept.touch key obj) := by
  intro use huse
  cases mem_append.mp huse with
  | inl hold =>
    obtain ⟨hmem, hne⟩ := mem_filter.mp hold
    apply hrem.append_of_not_uses (hkept use hmem)
    rw [hop]
    exact decide_eq_false (Ne.symm (of_decide_eq_true hne))
  | inr hnew =>
    rw [mem_singleton.mp hnew]
    refine ⟨hadd, ?_⟩
    rw [lastUse_append, hop, decide_eq_true rfl, if_pos rfl, hnow]

theorem Remembers.step (hrem : Remembers ops lru) (hnow : lru.now = ops.length)
    (entriesThreshold : Nat) (purgeThreshold : Fraction) (op : Op α) :
    Remembers (ops ++ [op]) (lruStep entriesThreshold purgeThreshold lru op) := by
  cases op with
  | add obj key =>
    apply hrem.touch
    · intro use huse
      obtain ⟨count, hdrop⟩ := uses_lruKept entriesThreshold purgeThreshold lru
      rw [hdrop] at huse
      exact mem_of_mem_drop huse
    · rw [now_lruKept, hnow]
    · intro name
      rfl
    · rw [lastAdded_append, Op.added, if_pos rfl]
      rfl
  | get key =>
    unfold lruStep
    dsimp only
    split
    next hfound =>
      intro use huse
      apply hrem.append_of_not_uses huse
      apply decide_eq_false
      intro heq
      have hmem : (key, use.value) ∈ lru.contents := by
        rw [heq]
        exact mem_map_of_mem huse
      rw [← Lru.find_eq_some_iff, hfound] at hmem
      contradiction
    next obj hfound =>
      apply hrem.touch (fun _ huse => huse) hnow (fun _ => rfl)
      obtain ⟨use, huse, heq⟩ := mem_map.mp (Lru.find_eq_some_iff.mp hfound)
      obtain ⟨rfl, rfl⟩ := Prod.mk.inj heq
      rw [lastAdded_append]
      exact (hrem use huse).1
  | remove key =>
    intro use huse
    exact hrem.append_of_not_uses (mem_filter.mp huse).1 rfl
  | purge fraction =>
    intro use huse
    exact hrem.append_of_not_uses (mem_filter.mp huse).1 rfl

theorem remembers_lruRun (entriesThreshold : Nat) (purgeThreshold : Fraction) (ops : List (Op α)) :
    (lruRun entriesThreshold purgeThreshold ops).now = ops.length
      ∧ Remembers ops (lruRun entriesThreshold purgeThreshold ops) := by
  induction ops using reverseRecOn with
  | nil => exact ⟨rfl, fun use huse => absurd huse not_mem_nil⟩
  | append_singleton ops op ih =>
    unfold lruRun at ih ⊢
    rw [foldl_append]
    refine ⟨?_, ih.2.step ih.1 entriesThreshold purgeThreshold op⟩
    rw [length_append, ← ih.1]
    exact now_lruStep ..

end

/-- After every run the maps are inverse, and the entries are those of an LRU cache. So `get`
finds what the LRU cache holds, and this is what was added last. -/
theorem run_represents_lru (entriesThreshold : Nat) (purgeThreshold : Fraction)
    (ops : List (Op α)) (hlength : ops.length < 2 ^ 32)
    (habsent : (ObjMemCache.new entriesThreshold purgeThreshold).AddsAbsent ops) :
    ∃ mem, (ObjMemCache.new entriesThreshold purgeThreshold).run ops = .ok mem
      ∧ Inverse mem.cache mem.index
      ∧ contents mem.cache = (lruRun entriesThreshold purgeThreshold ops).contents
      ∧ (∀ key, ∃ next,
          mem.get key = .ok ((lruRun entriesThreshold purgeThreshold ops).find key, next))
      ∧ ∀ use ∈ (lruRun entriesThreshold purgeThreshold ops).uses,
          lastAdded ops use.key = some use.value ∧ lastUse ops use.key = use.time := by
  obtain ⟨mem, hrun, hrep⟩ :=
    (Represents.new entriesThreshold purgeThreshold).run ops ((Nat.zero_add _).trans_lt hlength)
      habsent
  exact ⟨mem, hrun, hrep.holds.inverse, hrep.holds.contents_eq,
    hrep.get_find, (remembers_lruRun entriesThreshold purgeThreshold ops).2⟩

def sampleFraction : Fraction := ⟨fun count => count / 2⟩

def sampleCalls : List (Op Nat) :=
  [.add 1 "a".toList, .add 2 "b".toList, .add 3 "c".toList, .get "a".toList, .add 4 "d".toList]

theorem run_represents_lru_sample :
    ∃ mem : ObjMemCache Nat, (ObjMemCache.new 2 sampleFraction).run sampleCalls = .ok mem
      ∧ Inverse mem.cache mem.index
      ∧ contents mem.cache = [("c".toList, 3), ("a".toList, 1), ("d".toList, 4)]
      ∧ (∀ key, ∃ next, mem.get key = .ok ((lruRun 2 sampleFraction sampleCalls).find key, next))
      ∧ ∀ use ∈ (lruRun 2 sampleFraction sampleCalls).uses,
          lastAdded sampleCalls use.key = some use.value ∧ lastUse sampleCalls use.key = use.time :=
  run_represents_lru 2 sampleFraction sampleCalls (by decide) ⟨rfl, rfl, rfl, trivial, rfl, trivial⟩

end Bes.Dap
