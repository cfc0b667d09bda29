import Mathlib.Data.Finmap

/-!
# Hash maps and inverted indexes

A hash map is an association list without repeated keys; the order of its entries is the order in
which it is enumerated. A hash set is a hash map to `Unit`.

An inverted index maps a key to the set of the ids that carry it. `Buckets.add` and `Buckets.drop`
are its two updates; `drop` removes a bucket that becomes empty. `Inverts key base m` says that `m`
is exactly the inverse of the map `base` along `key` and has no empty bucket. Inserting a fresh id
and removing a present one keep it (`Inverts.insert`, `Inverts.erase`).
-/

set_option autoImplicit false

namespace Morceau.Lib

variable {α β ι κ : Type} [DecidableEq α] [DecidableEq ι] [DecidableEq κ]

/-- A hash map, with its enumeration order. -/
abbrev HashMap (α β : Type) := AList fun _ : α => β

/-- A hash set: a hash map to `Unit`. -/
abbrev HashSet (α : Type) := HashMap α Unit

/-- The values of a hash map in enumeration order. -/
def HashMap.values (m : HashMap α β) : List β := m.entries.map Sigma.snd

theorem HashMap.mem_entries_iff {m : HashMap α β} {a : α} {b : β} :
    (⟨a, b⟩ : Sigma fun _ : α => β) ∈ m.entries ↔ m.lookup a = some b := by
  rw [← AList.mem_lookup_iff]
  rfl

theorem HashMap.lookup_of_mem {m : HashMap α β} {a : α} (h : a ∈ m) : ∃ b, m.lookup a = some b :=
  Option.isSome_iff_exists.1 (AList.lookup_isSome.2 h)

theorem HashMap.mem_of_lookup {m : HashMap α β} {a : α} {b : β} (h : m.lookup a = some b) :
    a ∈ m := AList.lookup_isSome.1 (by rw [h]; rfl)

omit [DecidableEq α] in
/-- An empty hash map has no member. -/
theorem HashMap.entries_eq_nil_iff {m : HashMap α β} : m.entries = [] ↔ ∀ a, a ∉ m := by
  constructor
  · intro h a ha
    rw [AList.mem_keys, AList.keys, h] at ha
    simp at ha
  · intro h
    rcases hm : m.entries with _ | ⟨⟨a, b⟩, rest⟩
    · rfl
    · refine absurd ?_ (h a)
      rw [AList.mem_keys, AList.keys, hm]
      simp

/-! ## Set operations -/

namespace HashSet

/-- `HashSet::extend`: insert the elements of a list one by one. -/
def extend (s : HashSet α) (l : List α) : HashSet α := l.foldl (fun s a => s.insert a ()) s

/-- `HashSet::intersection`: enumerates the smaller of the two sets. -/
def intersection (s t : HashSet α) : List α :=
  if s.keys.length ≤ t.keys.length then s.keys.filter (· ∈ t) else t.keys.filter (· ∈ s)

theorem mem_extend {s : HashSet α} {l : List α} {a : α} : a ∈ s.extend l ↔ a ∈ s ∨ a ∈ l := by
  induction l generalizing s with
  | nil => simp [extend]
  | cons b l ih =>
      have h : s.extend (b :: l) = HashSet.extend (s.insert b ()) l := rfl
      rw [h, ih, AList.mem_insert, List.mem_cons]
      tauto

theorem mem_intersection {s t : HashSet α} {a : α} : a ∈ s.intersection t ↔ a ∈ s ∧ a ∈ t := by
  unfold intersection
  split
  · simp [AList.mem_keys]
  · simp [AList.mem_keys, and_comm]

theorem nodup_intersection (s t : HashSet α) : (s.intersection t).Nodup := by
  unfold intersection
  split
  · exact s.keys_nodup.filter _
  · exact t.keys_nodup.filter _

end HashSet

/-! ## Buckets -/

namespace Buckets

/-- The bucket of `k`, empty when `k` has none. -/
def bucket (m : HashMap κ (HashSet ι)) (k : κ) : HashSet ι := (m.lookup k).getD ∅

/-- Put `i` into the bucket of `k`. -/
def add (m : HashMap κ (HashSet ι)) (k : κ) (i : ι) : HashMap κ (HashSet ι) :=
  m.insert k ((bucket m k).insert i ())

/-- Take `i` out of the bucket of `k`, and the bucket out of the map when that empties it. -/
def drop (m : HashMap κ (HashSet ι)) (k : κ) (i : ι) : HashMap κ (HashSet ι) :=
  match m.lookup k with
  | none => m
  | some b => if (b.erase i).entries.isEmpty then m.erase k else m.insert k (b.erase i)

/-- Every bucket that is present has a member. -/
def NoEmpty (m : HashMap κ (HashSet ι)) : Prop := ∀ k b, m.lookup k = some b → b.entries ≠ []

theorem bucket_add_self (m : HashMap κ (HashSet ι)) (k : κ) (i : ι) :
    bucket (add m k i) k = (bucket m k).insert i () := by
  rw [bucket, add, AList.lookup_insert, Option.getD_some]

theorem bucket_add_ne (m : HashMap κ (HashSet ι)) {k k' : κ} (h : k' ≠ k) (i : ι) :
    bucket (add m k i) k' = bucket m k' := by
  rw [bucket, add, AList.lookup_insert_ne h, bucket]

theorem mem_bucket_add {m : HashMap κ (HashSet ι)} {k k' : κ} {i i' : ι} :
    i' ∈ bucket (add m k i) k' ↔ (k' = k ∧ i' = i) ∨ i' ∈ bucket m k' := by
  by_cases hk : k' = k
  · subst hk
    rw [bucket_add_self, AList.mem_insert]
    simp
  · rw [bucket_add_ne m hk]
    simp [hk]

theorem bucket_drop_self (m : HashMap κ (HashSet ι)) (k : κ) (i i' : ι) :
    i' ∈ bucket (drop m k i) k ↔ i' ≠ i ∧ i' ∈ bucket m k := by
  unfold drop
  cases hl : m.lookup k with
  | none => simp [bucket, hl]
  | some b =>
      have hb : bucket m k = b := by simp [bucket, hl]
      by_cases he : (b.erase i).entries.isEmpty
      · have hnone : ∀ j, j ∉ b.erase i :=
          HashMap.entries_eq_nil_iff.1 (List.isEmpty_iff.1 he)
        have hgone : i' ∉ b.erase i := hnone i'
        rw [AList.mem_erase] at hgone
        simp only [he, if_true, bucket, AList.lookup_erase, Option.getD_none, hl,
          Option.getD_some]
        simp [hgone]
      · simp only [he, bucket, hl, Option.getD_some]
        simp [AList.mem_erase]

theorem bucket_drop_ne (m : HashMap κ (HashSet ι)) {k k' : κ} (h : k' ≠ k) (i : ι) :
    bucket (drop m k i) k' = bucket m k' := by
  unfold drop
  cases hl : m.lookup k with
  | none => rfl
  | some b =>
      by_cases he : (b.erase i).entries.isEmpty
      · simp only [he, if_true, bucket, AList.lookup_erase_ne h]
      · simp only [he, bucket]
        rw [if_neg (by simp), AList.lookup_insert_ne h]

theorem mem_bucket_drop {m : HashMap κ (HashSet ι)} {k k' : κ} {i i' : ι} :
    i' ∈ bucket (drop m k i) k' ↔ i' ∈ bucket m k' ∧ ¬ (k' = k ∧ i' = i) := by
  by_cases hk : k' = k
  · subst hk
    rw [bucket_drop_self]
    constructor
    · rintro ⟨hi, hm⟩
      exact ⟨hm, fun h => hi h.2⟩
    · rintro ⟨hm, hi⟩
      exact ⟨fun h => hi ⟨rfl, h⟩, hm⟩
  · rw [bucket_drop_ne m hk]
    simp [hk]

theorem NoEmpty.add {m : HashMap κ (HashSet ι)} (h : NoEmpty m) (k : κ) (i : ι) :
    NoEmpty (add m k i) := by
  intro k' b hb
  by_cases hk : k' = k
  · subst hk
    rw [Buckets.add, AList.lookup_insert, Option.some.injEq] at hb
    subst hb
    simp [AList.entries_insert]
  · rw [Buckets.add, AList.lookup_insert_ne hk] at hb
    exact h k' b hb

theorem NoEmpty.drop {m : HashMap κ (HashSet ι)} (h : NoEmpty m) (k : κ) (i : ι) :
    NoEmpty (drop m k i) := by
  intro k' b hb
  unfold Buckets.drop at hb
  cases hl : m.lookup k with
  | none =>
      rw [hl] at hb
      exact h k' b hb
  | some b0 =>
      rw [hl] at hb
      by_cases he : (b0.erase i).entries.isEmpty
      · simp only [he, if_true] at hb
        by_cases hk : k' = k
        · subst hk
          rw [AList.lookup_erase] at hb
          cases hb
        · rw [AList.lookup_erase_ne hk] at hb
          exact h k' b hb
      · simp only [he] at hb
        rw [if_neg (by simp)] at hb
        by_cases hk : k' = k
        · subst hk
          rw [AList.lookup_insert, Option.some.injEq] at hb
          subst hb
          exact fun hnil => he (List.isEmpty_iff.2 hnil)
        · rw [AList.lookup_insert_ne hk] at hb
          exact h k' b hb

end Buckets

/-! ## Inverted indexes -/

/-- Looking up after an insert, as an updated function. -/
theorem lookup_insert_eq_update (s : Finmap fun _ : ι => β) (i : ι) (b : β) :
    (fun j => (s.insert i b).lookup j) = Function.update (fun j => s.lookup j) i (some b) := by
  funext j
  by_cases h : j = i
  · subst h
    simp
  · simp [h]

/-- Looking up after an erase, as an updated function. -/
theorem lookup_erase_eq_update (s : Finmap fun _ : ι => β) (i : ι) :
    (fun j => (s.erase i).lookup j) = Function.update (fun j => s.lookup j) i none := by
  funext j
  by_cases h : j = i
  · subst h
    simp
  · simp [h]

/-- `m` is the inverse of `base` along `key`, without empty buckets. -/
structure Inverts (key : β → κ) (base : ι → Option β) (m : HashMap κ (HashSet ι)) : Prop where
  mem_iff : ∀ k i, i ∈ Buckets.bucket m k ↔ ∃ b, base i = some b ∧ key b = k
  noEmpty : Buckets.NoEmpty m

namespace Inverts

variable {key : β → κ} {base : ι → Option β} {m : HashMap κ (HashSet ι)}

omit [DecidableEq ι] in
theorem empty : Inverts key (fun _ : ι => none) (∅ : HashMap κ (HashSet ι)) where
  mem_iff k i := by simp [Buckets.bucket]
  noEmpty k b hb := by simp at hb

/-- A fresh id enters the bucket of its key. -/
theorem insert (h : Inverts key base m) {i : ι} (hi : base i = none) (b : β) :
    Inverts key (Function.update base i (some b)) (Buckets.add m (key b) i) where
  mem_iff k i' := by
    rw [Buckets.mem_bucket_add, h.mem_iff]
    by_cases hii : i' = i
    · subst hii
      simp [hi, eq_comm]
    · simp [hii]
  noEmpty := h.noEmpty.add _ _

/-- A present id leaves the bucket of its key. -/
theorem erase (h : Inverts key base m) {i : ι} {b : β} (hi : base i = some b) :
    Inverts key (Function.update base i none) (Buckets.drop m (key b) i) where
  mem_iff k i' := by
    rw [Buckets.mem_bucket_drop, h.mem_iff]
    by_cases hii : i' = i
    · subst hii
      simp [hi, eq_comm]
    · simp [hii]
  noEmpty := h.noEmpty.drop _ _

end Inverts

end Morceau.Lib
