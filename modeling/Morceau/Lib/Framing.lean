import Mathlib.Data.List.Basic
import Mathlib.Data.List.Infix
import Mathlib.Tactic.Ring

/-!
# Length-prefixed byte logs

A frame is a payload preceded by its length as four little-endian bytes. A log is a concatenation of
frames. Cutting a log at an arbitrary byte leaves whole frames followed by a proper prefix of the
next one, and such a prefix is recognisably torn: it is too short for the length prefix, or the
length prefix promises more bytes than are there (`cut_torn`).
-/

set_option autoImplicit false

namespace Morceau.Lib

/-! ## Little-endian lengths -/

/-- The four little-endian bytes of `n`. -/
def le32 (n : Nat) : List UInt8 :=
  [UInt8.ofNat n, UInt8.ofNat (n / 256), UInt8.ofNat (n / 65536), UInt8.ofNat (n / 16777216)]

/-- The number read from the first four bytes; missing bytes count as zero. -/
def fromLe32 : List UInt8 → Nat
  | b0 :: b1 :: b2 :: b3 :: _ =>
      b0.toNat + 256 * b1.toNat + 65536 * b2.toNat + 16777216 * b3.toNat
  | [b0, b1, b2] => b0.toNat + 256 * b1.toNat + 65536 * b2.toNat
  | [b0, b1] => b0.toNat + 256 * b1.toNat
  | [b0] => b0.toNat
  | [] => 0

@[simp] theorem length_le32 (n : Nat) : (le32 n).length = 4 := rfl

theorem fromLe32_le32_append (n : Nat) (h : n < 2 ^ 32) (rest : List UInt8) :
    fromLe32 (le32 n ++ rest) = n := by
  simp only [le32, List.cons_append, List.nil_append, fromLe32, UInt8.toNat_ofNat']
  omega

theorem fromLe32_lt (bytes : List UInt8) : fromLe32 bytes < 2 ^ 32 := by
  unfold fromLe32
  split
  · rename_i b0 b1 b2 b3 _
    have := b0.toNat_lt
    have := b1.toNat_lt
    have := b2.toNat_lt
    have := b3.toNat_lt
    omega
  · rename_i b0 b1 b2
    have := b0.toNat_lt
    have := b1.toNat_lt
    have := b2.toNat_lt
    omega
  · rename_i b0 b1
    have := b0.toNat_lt
    have := b1.toNat_lt
    omega
  · rename_i b0
    have := b0.toNat_lt
    omega
  · decide

/-! ## Slices -/

/-- `n` bytes of `bs` from offset `o` on. -/
def slice (o n : Nat) (bs : List UInt8) : List UInt8 := (bs.drop o).take n

theorem slice_append_middle (pre mid post : List UInt8) :
    slice pre.length mid.length (pre ++ (mid ++ post)) = mid := by
  simp [slice]

/-- A slice does not see what is appended after it. -/
theorem slice_append_left {o n : Nat} {bs : List UInt8} (h : o + n ≤ bs.length)
    (post : List UInt8) : slice o n (bs ++ post) = slice o n bs := by
  simp only [slice]
  rw [List.drop_append_of_le_length (by omega), List.take_append_of_le_length]
  simp only [List.length_drop]
  omega

/-! ## Frames -/

/-- A payload preceded by its length. -/
def frame (payload : List UInt8) : List UInt8 := le32 payload.length ++ payload

/-- The byte lists that are frames of a payload whose length fits the prefix. -/
def IsFrame (bs : List UInt8) : Prop := ∃ payload, payload.length < 2 ^ 32 ∧ bs = frame payload

/-- A tail that ends before its length prefix or before the bytes its prefix promises. -/
def Torn (tail : List UInt8) : Prop := tail.length < 4 ∨ tail.length < 4 + fromLe32 tail

@[simp] theorem length_frame (payload : List UInt8) :
    (frame payload).length = 4 + payload.length := by
  simp [frame]

theorem fromLe32_frame_append {payload : List UInt8} (h : payload.length < 2 ^ 32)
    (rest : List UInt8) : fromLe32 (frame payload ++ rest) = payload.length := by
  rw [frame, List.append_assoc]
  exact fromLe32_le32_append _ h _

theorem IsFrame.four_le {bs : List UInt8} (h : IsFrame bs) : 4 ≤ bs.length := by
  obtain ⟨payload, -, rfl⟩ := h
  simp

/-- The prefix of a frame announces the rest of it, whatever follows. -/
theorem IsFrame.length_eq {bs : List UInt8} (h : IsFrame bs) (rest : List UInt8) :
    bs.length = 4 + fromLe32 (bs ++ rest) := by
  obtain ⟨payload, hp, rfl⟩ := h
  rw [fromLe32_frame_append hp, length_frame]

theorem torn_nil : Torn [] := Or.inl (by simp)

/-- Only the first four bytes decide what a length prefix says. -/
theorem fromLe32_append {a : List UInt8} (h : 4 ≤ a.length) (b : List UInt8) :
    fromLe32 (a ++ b) = fromLe32 a := by
  match a, h with
  | _ :: _ :: _ :: _ :: _, _ => rfl

theorem fromLe32_take {bs : List UInt8} {n : Nat} (hn : 4 ≤ n) (h : 4 ≤ bs.length) :
    fromLe32 (bs.take n) = fromLe32 bs := by
  have hlen : 4 ≤ (bs.take n).length := by
    rw [List.length_take]
    omega
  rw [← fromLe32_append hlen (bs.drop n), List.take_append_drop]

/-- A proper prefix of a frame is torn. -/
theorem IsFrame.torn_of_prefix {bs tail : List UInt8} (h : IsFrame bs) (hp : tail <+: bs)
    (hlt : tail.length < bs.length) : Torn tail := by
  by_cases h4 : tail.length < 4
  · exact Or.inl h4
  · obtain ⟨rest, rfl⟩ := hp
    have hlen := h.length_eq []
    rw [List.append_nil, fromLe32_append (by omega)] at hlen
    exact Or.inr (by omega)

/-! ## Cutting a log -/

/-- A log cut at byte `k` is as many whole frames as fit, followed by a torn tail. -/
theorem cut_torn (fs : List (List UInt8)) (hfs : ∀ f ∈ fs, IsFrame f) (k : Nat) :
    ∃ n tail, fs.flatten.take k = (fs.take n).flatten ++ tail ∧
      Torn tail ∧ (fs.take n).flatten.length ≤ k ∧
      (∀ m, (fs.take m).flatten.length ≤ k → (fs.take m).flatten.length ≤
        (fs.take n).flatten.length) := by
  induction fs generalizing k with
  | nil => exact ⟨0, [], by simp, torn_nil, by simp, by simp⟩
  | cons f fs ih =>
      have hf : IsFrame f := hfs f (by simp)
      by_cases hk : f.length ≤ k
      · obtain ⟨n, tail, hcut, ht, hle, hmax⟩ :=
          ih (fun g hg => hfs g (by simp [hg])) (k - f.length)
        refine ⟨n + 1, tail, ?_, ht, ?_, ?_⟩
        · rw [List.flatten_cons, List.take_append, List.take_of_length_le hk, hcut]
          simp
        · simp only [List.take_succ_cons, List.flatten_cons, List.length_append]
          omega
        · intro m hm
          cases m with
          | zero => simp
          | succ m =>
              simp only [List.take_succ_cons, List.flatten_cons, List.length_append] at hm ⊢
              have := hmax m (by omega)
              omega
      · refine ⟨0, f.take k, ?_, ?_, by simp, ?_⟩
        · rw [List.flatten_cons, List.take_append_of_le_length (by omega)]
          simp
        · refine hf.torn_of_prefix (List.take_prefix k f) ?_
          rw [List.length_take]
          omega
        · intro m hm
          cases m with
          | zero => simp
          | succ m =>
              simp only [List.take_succ_cons, List.flatten_cons, List.length_append] at hm
              omega

end Morceau.Lib
