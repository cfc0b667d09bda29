import Morceau.Lib.Wire

/-!
# Character boundaries

A byte offset into the UTF-8 encoding of a text is a character boundary if the bytes before it are
those of whole characters. `sliceStr cs a b` is the part of the text between two byte offsets; it
exists exactly if both are boundaries and in order (`sliceStr_isSome_iff`).

A byte below 128 is a character of its own, so it stands between two boundaries
(`isBoundary_of_ascii`); and the byte at a boundary is such a byte or the first one of a longer
character, which is at least 192 (`ascii_or_lead`).
-/

set_option autoImplicit false

namespace Morceau.Lib

open Wire

/-! ## The bytes of a character -/

theorem utf8_cons (c : Char) (cs : List Char) :
    utf8 (c :: cs) = String.utf8EncodeChar c ++ utf8 cs := rfl

theorem utf8_append (cs ds : List Char) : utf8 (cs ++ ds) = utf8 cs ++ utf8 ds :=
  List.flatMap_append

theorem utf8EncodeChar_of_ascii {c : Char} (h : c.toNat < 128) :
    String.utf8EncodeChar c = [UInt8.ofNat c.toNat] := if_pos (Nat.le_of_lt_succ h)

/-- Any other character has a first byte of at least 192 and more bytes of at least 128. -/
theorem utf8EncodeChar_of_not_ascii {c : Char} (h : ¬c.toNat < 128) :
    ∃ lead more, String.utf8EncodeChar c = lead :: more ∧ more ≠ [] ∧ 192 ≤ lead.toNat ∧
      ∀ b ∈ more, 128 ≤ b.toNat := by
  have hge : ¬c.val.toNat ≤ 127 := fun hle => h (Nat.lt_succ_of_le hle)
  unfold String.utf8EncodeChar
  rw [if_neg hge]
  split
  · refine ⟨_, _, rfl, by simp, ?_, ?_⟩
    · simp; omega
    · simp; omega
  · split
    · refine ⟨_, _, rfl, by simp, ?_, ?_⟩
      · simp; omega
      · simp; omega
    · refine ⟨_, _, rfl, by simp, ?_, ?_⟩
      · simp; omega
      · simp; omega

theorem utf8EncodeChar_length_pos (c : Char) : 0 < (String.utf8EncodeChar c).length :=
  List.length_pos_iff.2 String.utf8EncodeChar_ne_nil

/-- A text without bytes is empty. -/
theorem eq_nil_of_utf8_length {cs : List Char} (h : (utf8 cs).length = 0) : cs = [] := by
  cases cs with
  | nil => rfl
  | cons c cs =>
      have hpos := utf8EncodeChar_length_pos c
      rw [utf8_cons, List.length_append] at h
      omega

/-! ## Boundaries -/

/-- The bytes before the offset are those of whole characters of the text. -/
def IsBoundary (cs : List Char) (k : Nat) : Prop :=
  ∃ pre post, cs = pre ++ post ∧ (utf8 pre).length = k

theorem isBoundary_zero (cs : List Char) : IsBoundary cs 0 := ⟨[], cs, rfl, rfl⟩

theorem isBoundary_cons {c : Char} {cs : List Char} {k : Nat} (h : IsBoundary cs k) :
    IsBoundary (c :: cs) ((String.utf8EncodeChar c).length + k) := by
  obtain ⟨pre, post, rfl, rfl⟩ := h
  exact ⟨c :: pre, post, rfl, by rw [utf8_cons, List.length_append]⟩

theorem IsBoundary.le {cs : List Char} {k : Nat} (h : IsBoundary cs k) :
    k ≤ (utf8 cs).length := by
  obtain ⟨pre, post, rfl, rfl⟩ := h
  rw [utf8_append, List.length_append]
  exact Nat.le_add_right _ _

/-- A byte below 128 is a character of its own. -/
theorem isBoundary_of_ascii {cs : List Char} :
    ∀ {k : Nat} {b : UInt8}, (utf8 cs)[k]? = some b → b.toNat < 128 →
      IsBoundary cs k ∧ IsBoundary cs (k + 1) := by
  induction cs with
  | nil =>
      intro k b h
      cases h
  | cons c cs ih =>
      intro k b h hb
      rw [utf8_cons] at h
      rcases Nat.lt_or_ge k (String.utf8EncodeChar c).length with hk | hk
      · rw [List.getElem?_append_left hk] at h
        by_cases hc : c.toNat < 128
        · -- the character is its only byte
          have hone := utf8EncodeChar_of_ascii hc
          rw [hone, List.length_singleton] at hk
          obtain rfl : k = 0 := by omega
          have hnext := isBoundary_cons (c := c) (isBoundary_zero cs)
          rw [hone] at hnext
          exact ⟨isBoundary_zero _, hnext⟩
        · -- no byte of a longer character is below 128
          obtain ⟨lead, more, henc, -, hlead, hmore⟩ := utf8EncodeChar_of_not_ascii hc
          rw [henc] at h
          have hmem := List.mem_of_getElem? h
          rcases List.mem_cons.1 hmem with rfl | hmem
          · omega
          · have := hmore b hmem
            omega
      · rw [List.getElem?_append_right hk] at h
        obtain ⟨h0, h1⟩ := ih h hb
        have hsum : (String.utf8EncodeChar c).length +
            (k - (String.utf8EncodeChar c).length) = k := by omega
        have h0' := isBoundary_cons (c := c) h0
        have h1' := isBoundary_cons (c := c) h1
        rw [← Nat.add_assoc, hsum] at h1'
        rw [hsum] at h0'
        exact ⟨h0', h1'⟩

/-- The byte at a boundary is a character of its own or the first one of a longer character. -/
theorem ascii_or_lead {cs : List Char} {k : Nat} {b : UInt8} (hk : IsBoundary cs k)
    (h : (utf8 cs)[k]? = some b) : b.toNat < 128 ∨ 192 ≤ b.toNat := by
  obtain ⟨pre, post, rfl, rfl⟩ := hk
  rw [utf8_append, List.getElem?_append_right (Nat.le_refl _), Nat.sub_self] at h
  cases post with
  | nil => cases h
  | cons c post =>
      by_cases hc : c.toNat < 128
      · rw [utf8_cons, utf8EncodeChar_of_ascii hc] at h
        cases h
        left
        rw [UInt8.toNat_ofNat']
        omega
      · obtain ⟨lead, more, henc, -, hlead, -⟩ := utf8EncodeChar_of_not_ascii hc
        rw [utf8_cons, henc] at h
        cases h
        exact Or.inr hlead

/-! ## Slices -/

/-- The text before and after a byte offset, if the offset is a boundary. -/
def splitBytes : List Char → Nat → Option (List Char × List Char)
  | cs, 0 => some ([], cs)
  | [], _ + 1 => none
  | c :: cs, k + 1 =>
      if c.utf8Size ≤ k + 1 then
        (splitBytes cs (k + 1 - c.utf8Size)).map fun parts => (c :: parts.1, parts.2)
      else none

/-- The text between two byte offsets, if they are boundaries and in order. -/
def sliceStr (cs : List Char) (a b : Nat) : Option (List Char) :=
  if a ≤ b then
    (splitBytes cs a).bind fun parts => (splitBytes parts.2 (b - a)).map Prod.fst
  else none

theorem splitBytes_append (pre post : List Char) :
    splitBytes (pre ++ post) (utf8 pre).length = some (pre, post) := by
  induction pre with
  | nil => cases post <;> rfl
  | cons c pre ih =>
      have hpos := c.utf8Size_pos
      have hlen : (utf8 (c :: pre)).length = c.utf8Size + (utf8 pre).length := by
        rw [utf8_cons, List.length_append, String.length_utf8EncodeChar]
      -- the offset is past the bytes of the first character
      obtain ⟨k, hk⟩ := Nat.exists_eq_add_one_of_ne_zero
        (Nat.ne_of_gt (Nat.lt_of_lt_of_le hpos (Nat.le_add_right _ (utf8 pre).length)))
      have hrest : k + 1 - c.utf8Size = (utf8 pre).length := by omega
      rw [hlen, hk, List.cons_append, splitBytes, if_pos (by omega), hrest, ih]
      rfl

theorem eq_of_splitBytes {cs : List Char} : ∀ {k : Nat} {pre post : List Char},
    splitBytes cs k = some (pre, post) → cs = pre ++ post ∧ (utf8 pre).length = k := by
  induction cs with
  | nil =>
      intro k pre post h
      cases k with
      | zero =>
          cases h
          exact ⟨rfl, rfl⟩
      | succ k => cases h
  | cons c cs ih =>
      intro k pre post h
      cases k with
      | zero =>
          cases h
          exact ⟨rfl, rfl⟩
      | succ k =>
          rw [splitBytes] at h
          split at h
          case isFalse => cases h
          obtain ⟨parts, hparts, heq⟩ := Option.map_eq_some_iff.1 h
          cases heq
          obtain ⟨rfl, hlen⟩ := ih hparts
          refine ⟨rfl, ?_⟩
          rw [utf8_cons, List.length_append, String.length_utf8EncodeChar]
          omega

/-- What a slice is: the offsets are boundaries in order, and it has the bytes between them. -/
theorem sliceStr_eq_some {cs mid : List Char} {a b : Nat} (h : sliceStr cs a b = some mid) :
    a ≤ b ∧ IsBoundary cs a ∧ IsBoundary cs b ∧
      utf8 mid = ((utf8 cs).drop a).take (b - a) := by
  rw [sliceStr] at h
  split at h
  case isFalse => cases h
  rename_i hle
  obtain ⟨⟨pre, rest⟩, hpre, h⟩ := Option.bind_eq_some_iff.1 h
  obtain ⟨⟨mid', post⟩, hmid, rfl⟩ := Option.map_eq_some_iff.1 h
  obtain ⟨rfl, rfl⟩ := eq_of_splitBytes hpre
  obtain ⟨rfl, hlen⟩ := eq_of_splitBytes hmid
  refine ⟨hle, ⟨pre, _, rfl, rfl⟩, ⟨pre ++ mid', post, by simp, ?_⟩, ?_⟩
  · rw [utf8_append, List.length_append]
    omega
  · rw [utf8_append, List.drop_left, utf8_append, ← hlen, List.take_left]

/-- A slice between boundaries exists. -/
theorem sliceStr_isSome_iff {cs : List Char} {a b : Nat} :
    (sliceStr cs a b).isSome = true ↔ a ≤ b ∧ IsBoundary cs a ∧ IsBoundary cs b := by
  constructor
  · intro h
    obtain ⟨mid, hmid⟩ := Option.isSome_iff_exists.1 h
    obtain ⟨hle, ha, hb, -⟩ := sliceStr_eq_some hmid
    exact ⟨hle, ha, hb⟩
  · rintro ⟨hle, ⟨pre, rest, rfl, rfl⟩, ⟨pre', post, happ, rfl⟩⟩
    -- the first boundary is not past the second, so what is before the one goes on to the other
    have hprefix : pre <+: pre' := by
      rcases List.prefix_or_prefix_of_prefix (List.prefix_append pre rest)
        (happ ▸ List.prefix_append pre' post) with h | ⟨extra, rfl⟩
      · exact h
      · rw [utf8_append, List.length_append] at hle
        have hnil : extra = [] := eq_nil_of_utf8_length (by omega)
        rw [hnil, List.append_nil]
    obtain ⟨mid, rfl⟩ := hprefix
    rw [List.append_assoc] at happ
    obtain rfl := List.append_cancel_left happ
    have hlen : (utf8 (pre ++ mid)).length - (utf8 pre).length = (utf8 mid).length := by
      rw [utf8_append, List.length_append]
      omega
    rw [sliceStr, if_pos hle, splitBytes_append, Option.bind_some, hlen, splitBytes_append]
    rfl

end Morceau.Lib
