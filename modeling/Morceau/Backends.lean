import Morceau.Storage

/-!
# The two backends side by side

The same calls on a fresh `FileStorage` whose file does not fail and on a fresh `MemoryStorage`. The
backends differ in two places: `File::set_len` extends a file with zeros where `Vec::truncate` does
nothing, and `read_exact` fills an empty buffer anywhere past the end, where the memory backend
checks the end of the range. A run that does neither is the same on both, and any other run is not
(`backends_interchangeable_iff`).
-/

set_option autoImplicit false

namespace Morceau

open Lib

/-- A call of the `Storage` trait. -/
inductive StorageCall where
  | append (bytes : Bytes)
  | readAt (offset len : Nat)
  | len
  | isEmpty
  | truncate (newLen : Nat)
deriving DecidableEq

/-- What the caller sees of a call: what it returned, or that it failed. -/
inductive Observed where
  | offset (n : Nat)
  | bytes (bs : Bytes)
  | length (n : Nat)
  | flag (b : Bool)
  | done
  | failed
deriving DecidableEq

/-- Make the call. -/
def StorageCall.run {σ : Type} [Storage σ] (s : σ) : StorageCall → Observed × σ
  | .append bytes =>
      match Storage.append bytes s with
      | .ok off s' => (.offset off, s')
      | .error _ s' => (.failed, s')
  | .readAt offset n =>
      match Storage.readAt offset n s with
      | .ok bs s' => (.bytes bs, s')
      | .error _ s' => (.failed, s')
  | .len => (.length (Storage.len s), s)
  | .isEmpty => (.flag (Storage.isEmpty s), s)
  | .truncate newLen =>
      match Storage.truncate newLen s with
      | .ok _ s' => (.done, s')
      | .error _ s' => (.failed, s')

/-- The calls return the same on both backends, which hold the same bytes before, between and after
them. -/
def Interchangeable : List StorageCall → FileStorage → MemoryStorage → Prop
  | [], f, m => f.file.bytes = m.bytes
  | c :: cs, f, m =>
      f.file.bytes = m.bytes ∧ (c.run f).1 = (c.run m).1 ∧
        Interchangeable cs (c.run f).2 (c.run m).2

instance Interchangeable.decidable :
    (cs : List StorageCall) → (f : FileStorage) → (m : MemoryStorage) →
      Decidable (Interchangeable cs f m)
  | [], f, m => inferInstanceAs (Decidable (f.file.bytes = m.bytes))
  | c :: cs, f, m =>
      @instDecidableAnd _ _ inferInstance
        (@instDecidableAnd _ _ inferInstance (decidable cs (c.run f).2 (c.run m).2))

/-- On a store of `len` bytes the call does not truncate to more than there is, and does not read an
empty range that begins past the end. -/
def StorageCall.Tame (len : Nat) : StorageCall → Prop
  | .truncate newLen => newLen < headerLen ∨ newLen ≤ len
  | .readAt offset n => 0 < n ∨ offset ≤ len ∨ maxLen < offset
  | _ => True

/-- Every call is tame when its turn comes. -/
def TameRun : List StorageCall → MemoryStorage → Prop
  | [], _ => True
  | c :: cs, m => c.Tame m.bytes.length ∧ TameRun cs (c.run m).2

/-- The file holds the bytes of the vector, the backend knows its length, and nothing will fail. -/
structure Same (f : FileStorage) (m : MemoryStorage) : Prop where
  bytes : f.file.bytes = m.bytes
  len : f.len = m.bytes.length
  plan : f.plan = IoPlan.noFaults

theorem same_fresh (path : String) : Same (FileStorage.fresh path .noFaults) MemoryStorage.new :=
  ⟨rfl, rfl, rfl⟩

namespace Same

variable {f : FileStorage} {m : MemoryStorage}

theorem contents (h : Same f m) : f.contents = m.bytes := by
  rw [FileStorage.contents, h.bytes, h.len, List.take_length]

theorem stale (h : Same f m) : f.stale = [] := by
  rw [FileStorage.stale, h.bytes, h.len, List.drop_length]

/-- The file of a backend that holds no stale bytes, from its contents. -/
theorem of_contents (hc : f.contents = m.bytes) (hs : f.stale = [])
    (hplan : f.plan = IoPlan.noFaults) : Same f m where
  bytes := by rw [← f.contents_append_stale, hc, hs, List.append_nil]
  len := by rw [← f.length_contents, hc]
  plan := hplan

/-- An append succeeds on both, or is too long for both. -/
theorem append (h : Same f m) (b : Bytes) :
    ((StorageCall.append b).run f).1 = ((StorageCall.append b).run m).1 ∧
      Same ((StorageCall.append b).run f).2 ((StorageCall.append b).run m).2 := by
  have hplan : f.plan.afterWrite = IoPlan.noFaults := by rw [h.plan]; rfl
  have hlength : (m.bytes ++ b).length = f.len + b.length := by rw [List.length_append, h.len]
  by_cases hfits : f.len + b.length ≤ maxLen
  · have hm : Storage.append b m = .ok m.bytes.length ⟨m.bytes ++ b, hlength ▸ hfits⟩ :=
      dif_pos (hlength ▸ hfits)
    obtain ⟨f', hf⟩ : ∃ f', FileStorage.append b f = .ok f.len f' := by
      unfold FileStorage.append
      rw [dif_pos hfits, h.plan]
      exact ⟨_, rfl⟩
    obtain ⟨-, hc, hs, hp, -⟩ := FileStorage.append_eq_ok hf
    have hf : Storage.append b f = .ok f.len f' := hf
    simp only [StorageCall.run, hf, hm, h.len]
    refine ⟨trivial, of_contents ?_ ?_ (hp.trans hplan)⟩
    · rw [hc, h.contents]
    · rw [hs, h.stale, List.drop_nil]
  -- too long for the medium: both refuse and keep their bytes
  · have hf : Storage.append b f =
        .error (.io f.path "file too large") { f with plan := f.plan.afterWrite } := dif_neg hfits
    have hm : Storage.append b m = .error (.io ":memory:" "capacity overflow") m :=
      dif_neg (hlength ▸ hfits)
    simp only [StorageCall.run, hf, hm]
    exact ⟨trivial, h.bytes, h.len, hplan⟩

/-- A read gives the same on both exactly if it is tame, and moves neither. -/
theorem readAt (h : Same f m) (o n : Nat) :
    (((StorageCall.readAt o n).run f).1 = ((StorageCall.readAt o n).run m).1 ↔
        (StorageCall.readAt o n).Tame m.bytes.length) ∧
      Same ((StorageCall.readAt o n).run f).2 ((StorageCall.readAt o n).run m).2 := by
  have hplan : f.plan.afterRead = IoPlan.noFaults := by rw [h.plan]; rfl
  have hsame : Same { f with plan := f.plan.afterRead } m := ⟨h.bytes, h.len, hplan⟩
  have hle := m.fits
  have hf : Storage.readAt o n f =
      if maxLen < o then .error (.io f.path "invalid seek") { f with plan := f.plan.afterRead }
      else if 0 < n ∧ m.bytes.length < o + n then
        .error (.io f.path "failed to fill whole buffer") { f with plan := f.plan.afterRead }
      else .ok (slice o n m.bytes) { f with plan := f.plan.afterRead } := by
    show FileStorage.readAt o n f = _
    unfold FileStorage.readAt
    rw [h.plan, h.bytes]
    rfl
  have hm : Storage.readAt o n m =
      if m.bytes.length < o + n then .error (.io ":memory:" "read past end of memory store") m
      else .ok (slice o n m.bytes) m := rfl
  simp only [StorageCall.run, hf, hm, StorageCall.Tame]
  -- an offset that the file cannot seek to is past the end of the memory store as well
  by_cases hseek : maxLen < o
  · rw [if_pos hseek, if_pos (by omega)]
    exact ⟨by simp [hseek], hsame⟩
  · rw [if_neg hseek]
    by_cases hend : m.bytes.length < o + n
    · rw [if_pos hend]
      by_cases hn : 0 < n
      · rw [if_pos ⟨hn, hend⟩]
        exact ⟨by simp [hn], hsame⟩
      -- no byte is asked for past the end: only the file answers
      · rw [if_neg (by omega)]
        refine ⟨⟨fun hobs => by simp at hobs, fun htame => ?_⟩, hsame⟩
        omega
    · rw [if_neg hend, if_neg (by omega)]
      exact ⟨by simp; omega, hsame⟩

/-- A tame truncation does the same to both. -/
theorem truncate (h : Same f m) (n : Nat) (htame : (StorageCall.truncate n).Tame m.bytes.length) :
    ((StorageCall.truncate n).run f).1 = ((StorageCall.truncate n).run m).1 ∧
      Same ((StorageCall.truncate n).run f).2 ((StorageCall.truncate n).run m).2 := by
  by_cases hh : n < headerLen
  · have hf : Storage.truncate n f = .error (.truncateBelowHeader n headerLen) f := if_pos hh
    have hm : Storage.truncate n m = .error (.truncateBelowHeader n headerLen) m := if_pos hh
    simp only [StorageCall.run, hf, hm]
    exact ⟨trivial, h⟩
  · have hn : n ≤ m.bytes.length := htame.resolve_left hh
    have hrel : f.Reliable := by
      rw [FileStorage.Reliable, h.plan]
      exact ⟨rfl, rfl⟩
    have hn' : n ≤ f.contents.length := by rwa [h.contents]
    obtain ⟨f', hf⟩ := FileStorage.truncate_of_reliable hrel (by omega) hn'
    obtain ⟨hc, hs, hp⟩ := FileStorage.truncate_eq_ok hf hn'
    have hf : Storage.truncate n f = .ok () f' := hf
    have hm : Storage.truncate n m =
        .ok () ⟨m.bytes.take n, le_trans (List.length_take_le' _ _) m.fits⟩ := if_neg hh
    simp only [StorageCall.run, hf, hm]
    refine ⟨trivial, of_contents ?_ hs ?_⟩
    · rw [hc, h.contents]
    · rw [hp, h.plan]
      rfl

/-- A truncation that is not tame succeeds on the memory backend and does nothing; on the file it
fails, or it leaves a longer file. -/
theorem truncate_wild (h : Same f m) {n : Nat}
    (hwild : ¬ (StorageCall.truncate n).Tame m.bytes.length) :
    ((StorageCall.truncate n).run f).1 ≠ ((StorageCall.truncate n).run m).1 ∨
      ((StorageCall.truncate n).run f).2.file.bytes ≠ ((StorageCall.truncate n).run m).2.bytes := by
  obtain ⟨hh, hn⟩ := not_or.1 hwild
  have hm : Storage.truncate n m =
      .ok () ⟨m.bytes.take n, le_trans (List.length_take_le' _ _) m.fits⟩ := if_neg hh
  by_cases hmax : n ≤ maxLen
  · have hf : ∃ f', Storage.truncate n f = .ok () f' ∧ f'.file = f.file.setLen n hmax := by
      show ∃ f', FileStorage.truncate n f = .ok () f' ∧ _
      unfold FileStorage.truncate
      rw [if_neg hh, h.plan]
      exact ⟨_, dif_pos hmax, rfl⟩
    obtain ⟨f', hf, hfile⟩ := hf
    simp only [StorageCall.run, hf, hm]
    refine Or.inr fun hbytes => ?_
    -- the file was extended, and the memory store keeps its length
    have hlen := congrArg List.length hbytes
    rw [hfile] at hlen
    simp only [File.setLen, List.length_append, List.length_take, List.length_replicate,
      h.bytes] at hlen
    omega
  · have hf : Storage.truncate n f =
        .error (.io f.path "set_len") { f with plan := f.plan.afterCut } := by
      show FileStorage.truncate n f = _
      unfold FileStorage.truncate
      rw [if_neg hh, h.plan]
      exact dif_neg hmax
    simp only [StorageCall.run, hf, hm]
    exact Or.inl (by simp)

end Same

/-- The backends stay the same along a run exactly if every call of it is tame. -/
theorem Same.interchangeable_iff (cs : List StorageCall) :
    ∀ {f : FileStorage} {m : MemoryStorage}, Same f m →
      (Interchangeable cs f m ↔ TameRun cs m) := by
  induction cs with
  | nil => exact fun h => ⟨fun _ => trivial, fun _ => h.bytes⟩
  | cons c cs ih =>
      intro f m h
      -- a call that keeps the backends the same leaves the rest of the run to the induction
      have hstep : ((c.run f).1 = (c.run m).1 ↔ c.Tame m.bytes.length) →
          Same (c.run f).2 (c.run m).2 → (Interchangeable (c :: cs) f m ↔ TameRun (c :: cs) m) := by
        intro hobs hsame
        rw [Interchangeable, TameRun, hobs, ih hsame]
        exact ⟨fun hi => hi.2, fun ht => ⟨h.bytes, ht⟩⟩
      cases c with
      | append b => exact hstep (iff_of_true (h.append b).1 trivial) (h.append b).2
      | readAt o n => exact hstep (h.readAt o n).1 (h.readAt o n).2
      | len => exact hstep (iff_of_true (congrArg Observed.length h.len) trivial) h
      | isEmpty =>
          refine hstep (iff_of_true ?_ trivial) h
          show Observed.flag (decide (f.len ≤ headerLen)) =
            Observed.flag (decide (m.bytes.length ≤ headerLen))
          rw [h.len]
      | truncate n =>
          by_cases htame : (StorageCall.truncate n).Tame m.bytes.length
          · obtain ⟨hobs, hsame⟩ := h.truncate n htame
            exact hstep (iff_of_true hobs htame) hsame
          · refine iff_of_false (fun hi => ?_) fun ht => htame ht.1
            obtain ⟨-, hobs, hrest⟩ := hi
            -- the bytes are compared after the call, at the start of the rest of the run
            have hbytes : ((StorageCall.truncate n).run f).2.file.bytes =
                ((StorageCall.truncate n).run m).2.bytes := by
              cases cs with
              | nil => exact hrest
              | cons c cs => exact hrest.1
            rcases h.truncate_wild htame with hne | hne
            · exact hne hobs
            · exact hne hbytes

/-- When the file and the memory backend are interchangeable: on a fresh file that does not fail and
a fresh memory store, the calls return the same offsets, bytes and lengths, fail on the same calls,
and leave the same bytes at every point, exactly if none of them truncates to more than there is or
reads an empty range that begins past the end. -/
theorem backends_interchangeable_iff (path : String) (cs : List StorageCall) :
    Interchangeable cs (FileStorage.fresh path .noFaults) MemoryStorage.new ↔
      TameRun cs MemoryStorage.new :=
  (same_fresh path).interchangeable_iff cs

/-- One call on the fresh stores is enough: to truncate to one byte more than there is, or to read
nothing at the offset after the end. -/
theorem wild_calls_differ :
    ¬ Interchangeable [.truncate 17] (FileStorage.fresh "a.morceau" .noFaults) MemoryStorage.new ∧
      ¬ Interchangeable [.readAt 17 0] (FileStorage.fresh "a.morceau" .noFaults)
        MemoryStorage.new := by
  decide

end Morceau
