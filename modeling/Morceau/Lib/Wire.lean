import Mathlib.Data.Finmap

/-!
# Wire formats

A `Wire α` writes values of `α` as bytes and reads them back from the front of a byte list; its
field `get_put` says that reading what was written gives the value and leaves what follows. The
primitives are those of bincode 2 in its standard configuration: variable-length integers, zigzag
for signed ones, length-prefixed UTF-8 and length-prefixed sequences. Wires are combined by `pair`,
`list`, `iso` and, for enumerations, by a variant index in front (`putTag`, `getTag`).

Lengths are written as 64-bit integers, so the law is about values whose bytes number less than
`2 ^ 64`.
-/

set_option autoImplicit false

namespace Morceau.Lib

/-- Why reading failed. -/
inductive DecodeError where
  | unexpectedEnd (additional : Nat)
  | other (message : String)
deriving DecidableEq, Repr

/-! ## Fixed-width integers -/

/-- `n` in `k` bytes, least significant byte first. -/
def leBytes : Nat → Nat → List UInt8
  | 0, _ => []
  | k + 1, n => UInt8.ofNat n :: leBytes k (n / 256)

/-- The number that bytes stand for, least significant byte first. -/
def fromLe : List UInt8 → Nat
  | [] => 0
  | b :: bs => b.toNat + 256 * fromLe bs

@[simp] theorem length_leBytes (k n : Nat) : (leBytes k n).length = k := by
  induction k generalizing n with
  | zero => rfl
  | succ k ih => rw [leBytes, List.length_cons, ih]

theorem fromLe_leBytes {k n : Nat} (h : n < 256 ^ k) : fromLe (leBytes k n) = n := by
  induction k generalizing n with
  | zero =>
      rw [Nat.pow_zero] at h
      rw [leBytes, fromLe]
      omega
  | succ k ih =>
      rw [Nat.pow_succ] at h
      rw [leBytes, fromLe, ih (by omega), UInt8.toNat_ofNat']
      omega

/-- Split off the first `n` bytes. -/
def takeBytes (n : Nat) (bs : List UInt8) : Except DecodeError (List UInt8 × List UInt8) :=
  if n ≤ bs.length then .ok (bs.take n, bs.drop n) else .error (.unexpectedEnd (n - bs.length))

theorem takeBytes_append {n : Nat} {a : List UInt8} (h : a.length = n) (rest : List UInt8) :
    takeBytes n (a ++ rest) = .ok (a, rest) := by
  subst h
  simp [takeBytes]

/-- Read a fixed-width integer of `k` bytes. -/
def getLe (k : Nat) (bs : List UInt8) : Except DecodeError (Nat × List UInt8) := do
  let (xs, rest) ← takeBytes k bs
  pure (fromLe xs, rest)

theorem getLe_leBytes {k n : Nat} (h : n < 256 ^ k) (rest : List UInt8) :
    getLe k (leBytes k n ++ rest) = .ok (n, rest) := by
  rw [getLe, takeBytes_append (length_leBytes k n)]
  show Except.ok (fromLe (leBytes k n), rest) = _
  rw [fromLe_leBytes h]

/-! ## Variable-length integers -/

/-- A small integer is its own byte; a larger one is a marker and two, four or eight bytes. -/
def putVarint (n : Nat) : List UInt8 :=
  if n < 251 then [UInt8.ofNat n]
  else if n < 256 ^ 2 then 251 :: leBytes 2 n
  else if n < 256 ^ 4 then 252 :: leBytes 4 n
  else 253 :: leBytes 8 n

/-- The width a marker announces. -/
def markerWidth : UInt8 → Option Nat
  | 251 => some 2
  | 252 => some 4
  | 253 => some 8
  | _ => none

/-- Read a variable-length integer of at most `width` bytes. Longer forms than needed are read. -/
def getVarint (width : Nat) : List UInt8 → Except DecodeError (Nat × List UInt8)
  | [] => .error (.unexpectedEnd 1)
  | b :: bs =>
      if b < 251 then .ok (b.toNat, bs)
      else
        match markerWidth b with
        | some k => if k ≤ width then getLe k bs else .error (.other "integer type too wide")
        | none => .error (.other "invalid integer type")

theorem getVarint_putVarint {n : Nat} (h : n < 2 ^ 64) (rest : List UInt8) :
    getVarint 8 (putVarint n ++ rest) = .ok (n, rest) := by
  unfold putVarint
  split
  · have hn : n % 256 = n := by omega
    have hb : UInt8.ofNat n < 251 := by
      rw [UInt8.lt_iff_toNat_lt, UInt8.toNat_ofNat', hn]
      assumption
    simp [getVarint, hb, hn]
  · split
    · exact getLe_leBytes (by omega) rest
    · split
      · exact getLe_leBytes (by omega) rest
      · exact getLe_leBytes (by omega) rest

theorem one_le_length_putVarint (n : Nat) : 1 ≤ (putVarint n).length := by
  unfold putVarint
  split
  · simp
  · split
    · simp
    · split
      · simp
      · simp

/-- The index of an enumeration's variant. -/
def putTag (n : Nat) : List UInt8 := putVarint n

/-- Read the index of a variant. -/
def getTag (bs : List UInt8) : Except DecodeError (Nat × List UInt8) := getVarint 4 bs

theorem getTag_putTag {n : Nat} (h : n < 251) (rest : List UInt8) :
    getTag (putTag n ++ rest) = .ok (n, rest) := by
  have hn : n % 256 = n := by omega
  have hb : UInt8.ofNat n < 251 := by
    rw [UInt8.lt_iff_toNat_lt, UInt8.toNat_ofNat', hn]
    exact h
  simp [getTag, putTag, putVarint, h, getVarint, hb, hn]

/-- Reading on after a variant index that was written. -/
theorem getTag_bind {β : Type} {n : Nat} (h : n < 251) (rest : List UInt8)
    (f : Nat × List UInt8 → Except DecodeError β) :
    (getTag (putTag n ++ rest) >>= f) = f (n, rest) := by
  rw [getTag_putTag h]
  rfl

/-! ## Wires -/

/-- A format: how values are written and read, and that reading undoes writing. -/
structure Wire (α : Type) where
  put : α → List UInt8
  get : List UInt8 → Except DecodeError (α × List UInt8)
  get_put : ∀ a rest, (put a).length < 2 ^ 64 → get (put a ++ rest) = .ok (a, rest)

namespace Wire

variable {α β : Type}

/-- Two values, one after the other. -/
def pair (a : Wire α) (b : Wire β) : Wire (α × β) where
  put x := a.put x.1 ++ b.put x.2
  get bs := do
    let (x, bs) ← a.get bs
    let (y, bs) ← b.get bs
    pure ((x, y), bs)
  get_put x rest h := by
    rw [List.length_append] at h
    rw [List.append_assoc, a.get_put _ _ (by omega)]
    show (b.get (b.put x.2 ++ rest) >>= fun p => pure ((x.1, p.1), p.2)) = _
    rw [b.get_put _ _ (by omega)]
    rfl

/-- The format of `α` for values of `β` that are rebuilt from their image. -/
def iso (w : Wire α) (f : α → β) (g : β → α) (h : ∀ b, f (g b) = b) : Wire β where
  put b := w.put (g b)
  get bs := do
    let (a, bs) ← w.get bs
    pure (f a, bs)
  get_put b rest hlen := by
    rw [w.get_put _ _ hlen]
    show Except.ok (f (g b), rest) = _
    rw [h]

/-- Read a value of `α` as the payload of a variant of `β`. -/
def getAs (w : Wire α) (f : α → β) (bs : List UInt8) : Except DecodeError (β × List UInt8) := do
  let (a, bs) ← w.get bs
  pure (f a, bs)

theorem getAs_put (w : Wire α) (f : α → β) {a : α} (h : (w.put a).length < 2 ^ 64)
    (rest : List UInt8) : w.getAs f (w.put a ++ rest) = .ok (f a, rest) := by
  rw [getAs, w.get_put a rest h]
  rfl

/-- A boolean is one byte. -/
def bool : Wire Bool where
  put b := [if b then 1 else 0]
  get
    | [] => .error (.unexpectedEnd 1)
    | 0 :: bs => .ok (false, bs)
    | 1 :: bs => .ok (true, bs)
    | _ :: _ => .error (.other "invalid boolean")
  get_put b rest _ := by
    cases b with
    | false => rfl
    | true => rfl

/-- A 64-bit unsigned integer. -/
def u64 : Wire UInt64 where
  put n := putVarint n.toNat
  get bs := do
    let (n, bs) ← getVarint 8 bs
    pure (UInt64.ofNat n, bs)
  get_put n rest _ := by
    rw [getVarint_putVarint n.toNat_lt]
    show Except.ok (UInt64.ofNat n.toNat, rest) = _
    rw [UInt64.ofNat_toNat]

/-- Signed integers alternate: 0, -1, 1, -2, ... -/
def zigzag (i : Int) : Nat := if i < 0 then 2 * (-i - 1).toNat + 1 else 2 * i.toNat

/-- The inverse of `zigzag`. -/
def unzigzag (n : Nat) : Int := if n % 2 = 0 then (n / 2 : Nat) else -(n / 2 : Nat) - 1

theorem unzigzag_zigzag (i : Int) : unzigzag (zigzag i) = i := by
  unfold unzigzag zigzag
  split
  · split
    · omega
    · omega
  · split
    · omega
    · omega

/-- A 64-bit signed integer. -/
def i64 : Wire Int64 where
  put i := putVarint (zigzag i.toInt)
  get bs := do
    let (n, bs) ← getVarint 8 bs
    pure (Int64.ofInt (unzigzag n), bs)
  get_put i rest _ := by
    have h1 := i.le_toInt
    have h2 := i.toInt_lt
    have h : zigzag i.toInt < 2 ^ 64 := by
      unfold zigzag
      split
      · omega
      · omega
    rw [getVarint_putVarint h]
    show Except.ok (Int64.ofInt (unzigzag (zigzag i.toInt)), rest) = _
    rw [unzigzag_zigzag, Int64.ofInt_toInt]

/-- Eight bytes, as for the bits of a double. -/
def bits64 : Wire UInt64 where
  put n := leBytes 8 n.toNat
  get bs := do
    let (n, bs) ← getLe 8 bs
    pure (UInt64.ofNat n, bs)
  get_put n rest _ := by
    have h := n.toNat_lt
    rw [getLe_leBytes (by omega)]
    show Except.ok (UInt64.ofNat n.toNat, rest) = _
    rw [UInt64.ofNat_toNat]

/-! ## Text -/

/-- The UTF-8 bytes of a list of characters. -/
def utf8 (cs : List Char) : List UInt8 := cs.flatMap String.utf8EncodeChar

/-- Read UTF-8 to the end of the bytes; `fuel` bounds the number of characters. -/
def fromUtf8 : Nat → List UInt8 → Option (List Char)
  | _, [] => some []
  | 0, _ :: _ => none
  | fuel + 1, b :: bs =>
      match ByteArray.utf8DecodeChar? ⟨⟨b :: bs⟩⟩ 0 with
      | none => none
      | some c => (fromUtf8 fuel ((b :: bs).drop (String.utf8EncodeChar c).length)).map (c :: ·)

theorem utf8DecodeChar?_encode_append (c : Char) (rest : List UInt8) :
    ByteArray.utf8DecodeChar? ⟨⟨String.utf8EncodeChar c ++ rest⟩⟩ 0 = some c := by
  have h : (⟨⟨String.utf8EncodeChar c ++ rest⟩⟩ : ByteArray) =
      (String.utf8EncodeChar c).toByteArray ++ rest.toByteArray := by
    apply ByteArray.ext
    simp [List.data_toByteArray]
  rw [h]
  exact ByteArray.utf8DecodeChar?_utf8EncodeChar_append

theorem fromUtf8_utf8 (cs : List Char) :
    ∀ fuel, (utf8 cs).length ≤ fuel → fromUtf8 fuel (utf8 cs) = some cs := by
  induction cs with
  | nil =>
      intro fuel _
      cases fuel with
      | zero => rfl
      | succ fuel => rfl
  | cons c cs ih =>
      intro fuel hfuel
      obtain ⟨b, bs, hb⟩ := List.exists_cons_of_ne_nil (String.utf8EncodeChar_ne_nil (c := c))
      have hsplit : utf8 (c :: cs) = String.utf8EncodeChar c ++ utf8 cs := rfl
      rw [hsplit, List.length_append] at hfuel
      have hpos : 0 < (String.utf8EncodeChar c).length := by simp [hb]
      obtain ⟨fuel, rfl⟩ : ∃ n, fuel = n + 1 := ⟨fuel - 1, by omega⟩
      have hdec := utf8DecodeChar?_encode_append c (utf8 cs)
      have hdrop : (String.utf8EncodeChar c ++ utf8 cs).drop (String.utf8EncodeChar c).length =
          utf8 cs := List.drop_left
      rw [hsplit]
      rw [hb, List.cons_append] at hdec hdrop ⊢
      rw [fromUtf8, hdec]
      simp only
      rw [hb, hdrop, ih fuel (by omega)]
      rfl

/-- A string: the length of its UTF-8 bytes, and the bytes. -/
def string : Wire String where
  put s := putVarint (utf8 s.toList).length ++ utf8 s.toList
  get bs := do
    let (n, bs) ← getVarint 8 bs
    let (xs, bs) ← takeBytes n bs
    match fromUtf8 xs.length xs with
    | some cs => pure (String.ofList cs, bs)
    | none => .error (.other "invalid utf-8")
  get_put s rest h := by
    rw [List.length_append] at h
    rw [List.append_assoc, getVarint_putVarint (by omega)]
    show (takeBytes _ (utf8 s.toList ++ rest) >>= _) = _
    rw [takeBytes_append rfl]
    show (match fromUtf8 (utf8 s.toList).length (utf8 s.toList) with
      | some cs => (pure (String.ofList cs, rest) : Except DecodeError (String × List UInt8))
      | none => .error (.other "invalid utf-8")) = _
    rw [fromUtf8_utf8 _ _ (le_refl _)]
    show Except.ok (String.ofList s.toList, rest) = _
    rw [String.ofList_toList]

theorem one_le_length_string (s : String) : 1 ≤ (string.put s).length := by
  have := one_le_length_putVarint (utf8 s.toList).length
  simp only [string, List.length_append]
  omega

/-! ## Sequences -/

/-- Read `n` values with the reader `get`. -/
def getMany (get : List UInt8 → Except DecodeError (α × List UInt8)) :
    Nat → List UInt8 → Except DecodeError (List α × List UInt8)
  | 0, bs => .ok ([], bs)
  | n + 1, bs => do
      let (a, bs) ← get bs
      let (as, bs) ← getMany get n bs
      pure (a :: as, bs)

/-- Reading as many values as were written gives them back. -/
theorem getMany_flatMap {get : List UInt8 → Except DecodeError (α × List UInt8)}
    {put : α → List UInt8} (as : List α)
    (h : ∀ a ∈ as, ∀ rest, get (put a ++ rest) = .ok (a, rest)) (rest : List UInt8) :
    getMany get as.length (as.flatMap put ++ rest) = .ok (as, rest) := by
  induction as with
  | nil => rfl
  | cons a as ih =>
      rw [List.flatMap_cons, List.append_assoc, List.length_cons, getMany,
        h a (List.mem_cons_self ..)]
      show (getMany get as.length (as.flatMap put ++ rest) >>= _) = _
      rw [ih fun x hx => h x (List.mem_cons_of_mem _ hx)]
      rfl

theorem length_le_flatMap {put : α → List UInt8} (hpos : ∀ a, 1 ≤ (put a).length)
    (as : List α) : as.length ≤ (as.flatMap put).length := by
  induction as with
  | nil => simp
  | cons a as ih =>
      have := hpos a
      rw [List.flatMap_cons, List.length_append, List.length_cons]
      omega

theorem length_put_le_flatMap (put : α → List UInt8) {a : α} {as : List α} (h : a ∈ as) :
    (put a).length ≤ (as.flatMap put).length := by
  induction as with
  | nil => cases h
  | cons b as ih =>
      rw [List.flatMap_cons, List.length_append]
      rcases List.mem_cons.1 h with rfl | h
      · omega
      · have := ih h
        omega

/-- A sequence: its length, and its members. Every member takes at least one byte. -/
def list (w : Wire α) (hpos : ∀ a, 1 ≤ (w.put a).length) : Wire (List α) where
  put as := putVarint as.length ++ as.flatMap w.put
  get bs := do
    let (n, bs) ← getVarint 8 bs
    getMany w.get n bs
  get_put as rest h := by
    rw [List.length_append] at h
    have hlen := length_le_flatMap hpos as
    rw [List.append_assoc, getVarint_putVarint (by omega)]
    refine getMany_flatMap as (fun a ha rest => w.get_put a rest ?_) rest
    have := length_put_le_flatMap w.put ha
    omega

/-- Building a sorted map from its entries gives the map back. -/
theorem ofList_toList (m : Std.ExtTreeMap String α compare) :
    Std.ExtTreeMap.ofList m.toList compare = m := by
  apply Std.ExtTreeMap.ext_getElem?
  intro k
  cases h : m[k]? with
  | none =>
      apply Std.ExtTreeMap.getElem?_ofList_of_contains_eq_false
      rw [Std.ExtTreeMap.map_fst_toList_eq_keys, Std.ExtTreeMap.contains_keys,
        Std.ExtTreeMap.contains_eq_isSome_getElem?, h]
      rfl
  | some a =>
      exact Std.ExtTreeMap.getElem?_ofList_of_mem Std.ReflCmp.compare_self
        m.distinct_keys_toList (Std.ExtTreeMap.mem_toList_iff_getElem?_eq_some.2 h)

theorem one_le_length_pair_string (w : Wire α) (p : String × α) :
    1 ≤ ((string.pair w).put p).length := by
  have := one_le_length_string p.1
  simp only [pair, List.length_append]
  omega

/-- A sorted map: its entries in key order. -/
def treeMap (w : Wire α) : Wire (Std.ExtTreeMap String α compare) :=
  ((string.pair w).list (one_le_length_pair_string w)).iso
    (fun l => Std.ExtTreeMap.ofList l compare) (fun m => m.toList) ofList_toList

end Wire

end Morceau.Lib
