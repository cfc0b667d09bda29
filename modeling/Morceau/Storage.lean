import Morceau.Data.Graph
import Morceau.Lib.EState
import Morceau.Lib.Framing

/-!
# Storage backends

The `Storage` trait of `storage.rs` and its two backends. `MemoryStorage` is a byte vector.
`FileStorage` keeps its own length beside the file, because a failed append leaves bytes past that
length in the file: `write_all` may persist any prefix of the frame before it fails, and `sync_all`
may fail after the whole frame was written. Which calls of the operating system fail is the
backend's `IoPlan`, so a run over every plan is a run over every pattern of failures.

`LawfulStorage` states what the engine relies on: an append goes to the end of the contents and a
failed one does not change them, a read returns the bytes that are there, and a truncation cuts.
Both backends obey it. The contents of a `FileStorage` are the bytes below its length.
-/

set_option autoImplicit false

namespace Morceau

open Lib

/-- Magic prefix of a store: `MORCEAU\x01`. -/
def magic : Bytes := [0x4d, 0x4f, 0x52, 0x43, 0x45, 0x41, 0x55, 0x01]

/-- On-disk format version. -/
def formatVersion : Nat := 4

/-- Length of the store header. -/
def headerLen : Nat := 16

/-- The header of a fresh store: magic, format version, zero padding. -/
def header : Bytes := magic ++ le32 formatVersion ++ [0, 0, 0, 0]

@[simp] theorem length_header : header.length = headerLen := rfl

/-- Largest length of a file or of a vector: both are indexed by a signed 64-bit integer. -/
def maxLen : Nat := 2 ^ 63 - 1

/-- `StorageError`. -/
inductive StorageError where
  | io (path source : String)
  | badMagic (path : String)
  | badVersion (path : String) (found expected : Nat)
  | shortHeader (path : String) (len expected : Nat)
  | truncateBelowHeader (newLen headerLen : Nat)
  | jsHostError (message : String)
deriving DecidableEq, Repr

/-- The `Storage` trait. Offsets and lengths are numbers; the trait's `u64` is the bound `len_lt` of
`LawfulStorage`. -/
class Storage (σ : Type) where
  append : Bytes → EStateM StorageError σ Nat
  readAt : Nat → Nat → EStateM StorageError σ Bytes
  len : σ → Nat
  truncate : Nat → EStateM StorageError σ Unit

/-- `Storage::is_empty`: nothing but the header. -/
def Storage.isEmpty {σ : Type} [Storage σ] (s : σ) : Bool := decide (Storage.len s ≤ headerLen)

/-- What the engine relies on. `contents` is the logical content of the store. A `Reliable` store
answers every read inside its contents and every truncation that keeps the header. -/
class LawfulStorage (σ : Type) extends Storage σ where
  contents : σ → Bytes
  Reliable : σ → Prop
  len_eq : ∀ s, len s = (contents s).length
  len_lt : ∀ s, len s < 2 ^ 64
  append_ok : ∀ {b s off s'}, append b s = .ok off s' →
    off = (contents s).length ∧ contents s' = contents s ++ b ∧ (Reliable s → Reliable s')
  append_error : ∀ {b s err s'}, append b s = .error err s' →
    contents s' = contents s ∧ (Reliable s → Reliable s')
  readAt_ok : ∀ {o n s bs s'}, readAt o n s = .ok bs s' →
    contents s' = contents s ∧ (Reliable s → Reliable s') ∧
      (o + n ≤ (contents s).length → bs = slice o n (contents s))
  readAt_error : ∀ {o n s err s'}, readAt o n s = .error err s' →
    contents s' = contents s ∧ (Reliable s → Reliable s')
  readAt_reliable : ∀ {o n s}, Reliable s → o + n ≤ (contents s).length →
    ∃ bs s', readAt o n s = .ok bs s'
  truncate_ok : ∀ {n s s'}, truncate n s = .ok () s' → n ≤ (contents s).length →
    contents s' = (contents s).take n ∧ (Reliable s → Reliable s')
  truncate_reliable : ∀ {n s}, Reliable s → headerLen ≤ n → n ≤ (contents s).length →
    ∃ s', truncate n s = .ok () s'

/-- One read, whatever its outcome. -/
def ReadStep {σ : Type} [Storage σ] (s s' : σ) : Prop :=
  ∃ o n, finalState (Storage.readAt o n s) = s'

/-- Any number of reads. -/
def ReadSteps {σ : Type} [Storage σ] : σ → σ → Prop := Relation.ReflTransGen ReadStep

namespace ReadSteps

variable {σ : Type} [LawfulStorage σ] {s s' : σ}

/-- Reads do not change the contents, and a reliable backend stays reliable. -/
theorem keeps (h : ReadSteps s s') :
    LawfulStorage.contents s' = LawfulStorage.contents s ∧
      (LawfulStorage.Reliable s → LawfulStorage.Reliable s') := by
  induction h with
  | refl => exact ⟨rfl, id⟩
  | @tail t u _ hstep ih =>
      obtain ⟨o, n, rfl⟩ := hstep
      cases hr : Storage.readAt o n t with
      | ok bs t' =>
          obtain ⟨hc, hrel, -⟩ := LawfulStorage.readAt_ok hr
          exact ⟨hc.trans ih.1, fun h => hrel (ih.2 h)⟩
      | error err t' =>
          obtain ⟨hc, hrel⟩ := LawfulStorage.readAt_error hr
          exact ⟨hc.trans ih.1, fun h => hrel (ih.2 h)⟩

end ReadSteps

/-! ## MemoryStorage -/

/-- `MemoryStorage`: a byte vector. -/
structure MemoryStorage where
  bytes : Bytes
  fits : bytes.length ≤ maxLen

namespace MemoryStorage

/-- `MemoryStorage::new`: the header. -/
def new : MemoryStorage := ⟨header, by decide⟩

/-- `MemoryStorage::append`. A vector that cannot grow any more counts as a failed append. -/
def append (b : Bytes) : EStateM StorageError MemoryStorage Nat := fun s =>
  if h : (s.bytes ++ b).length ≤ maxLen then .ok s.bytes.length ⟨s.bytes ++ b, h⟩
  else .error (.io ":memory:" "capacity overflow") s

/-- `MemoryStorage::read_at`. Where `start + len` overflows, the code panics; that is recorded as a
failed read, like every range past the end. -/
def readAt (o n : Nat) : EStateM StorageError MemoryStorage Bytes := fun s =>
  if s.bytes.length < o + n then .error (.io ":memory:" "read past end of memory store") s
  else .ok (slice o n s.bytes) s

/-- `MemoryStorage::truncate`. -/
def truncate (n : Nat) : EStateM StorageError MemoryStorage Unit := fun s =>
  if n < headerLen then .error (.truncateBelowHeader n headerLen) s
  else .ok () ⟨s.bytes.take n, le_trans (List.length_take_le' _ _) s.fits⟩

instance : Storage MemoryStorage where
  append := append
  readAt := readAt
  len s := s.bytes.length
  truncate := truncate

theorem append_eq_ok {b : Bytes} {s s' : MemoryStorage} {off : Nat}
    (h : append b s = .ok off s') : off = s.bytes.length ∧ s'.bytes = s.bytes ++ b := by
  unfold append at h
  split at h
  · cases h
    exact ⟨rfl, rfl⟩
  · cases h

theorem append_eq_error {b : Bytes} {s s' : MemoryStorage} {err : StorageError}
    (h : append b s = .error err s') : s' = s := by
  unfold append at h
  split at h
  · cases h
  · cases h
    rfl

theorem readAt_eq_ok {o n : Nat} {s s' : MemoryStorage} {bs : Bytes}
    (h : readAt o n s = .ok bs s') : s' = s ∧ bs = slice o n s.bytes := by
  unfold readAt at h
  split at h
  · cases h
  · cases h
    exact ⟨rfl, rfl⟩

theorem readAt_eq_error {o n : Nat} {s s' : MemoryStorage} {err : StorageError}
    (h : readAt o n s = .error err s') : s' = s := by
  unfold readAt at h
  split at h
  · cases h
    rfl
  · cases h

instance : LawfulStorage MemoryStorage where
  contents s := s.bytes
  Reliable _ := True
  len_eq _ := rfl
  len_lt s := lt_of_le_of_lt s.fits (by decide)
  append_ok h := ⟨(append_eq_ok h).1, (append_eq_ok h).2, fun _ => trivial⟩
  append_error h := by
    rw [append_eq_error h]
    exact ⟨rfl, fun _ => trivial⟩
  readAt_ok h := by
    obtain ⟨rfl, rfl⟩ := readAt_eq_ok h
    exact ⟨rfl, fun _ => trivial, fun _ => rfl⟩
  readAt_error h := by
    rw [readAt_eq_error h]
    exact ⟨rfl, fun _ => trivial⟩
  readAt_reliable {o n s} _ hle := by
    refine ⟨slice o n s.bytes, s, ?_⟩
    show readAt o n s = _
    rw [readAt, if_neg (by omega)]
  truncate_ok {n s s'} h _ := by
    have h' : truncate n s = .ok () s' := h
    unfold truncate at h'
    split at h'
    · cases h'
    · cases h'
      exact ⟨rfl, fun _ => trivial⟩
  truncate_reliable {n s} _ hh _ := by
    refine ⟨⟨s.bytes.take n, le_trans (List.length_take_le' _ _) s.fits⟩, ?_⟩
    show truncate n s = _
    rw [truncate, if_neg (by omega)]

end MemoryStorage

/-! ## Files -/

/-- A file of the operating system. -/
structure File where
  bytes : Bytes
  fits : bytes.length ≤ maxLen

namespace File

/-- Bytes after writing `b` at offset `o`; what lies past the written range stays. -/
def overwrite (bs : Bytes) (o : Nat) (b : Bytes) : Bytes :=
  bs.take o ++ b ++ bs.drop (o + b.length)

theorem length_overwrite {bs b : Bytes} {o : Nat} (h : o ≤ bs.length) :
    (overwrite bs o b).length = max bs.length (o + b.length) := by
  simp only [overwrite, List.length_append, List.length_take, List.length_drop]
  omega

theorem take_overwrite {bs b : Bytes} {o : Nat} (h : o ≤ bs.length) :
    (overwrite bs o b).take o = bs.take o := by
  rw [overwrite, List.append_assoc, List.take_append_of_le_length (by simp [h]), List.take_take,
    Nat.min_self]

theorem take_overwrite_add {bs b : Bytes} {o : Nat} (h : o ≤ bs.length) :
    (overwrite bs o b).take (o + b.length) = bs.take o ++ b := by
  rw [overwrite, List.take_append_of_le_length]
  · rw [List.take_of_length_le]
    simp [h]
  · simp [h]

theorem drop_overwrite {bs b : Bytes} {o : Nat} (h : o ≤ bs.length) :
    (overwrite bs o b).drop o = b ++ bs.drop (o + b.length) := by
  rw [overwrite, List.append_assoc, List.drop_append_of_le_length (by simp [h])]
  simp

theorem drop_overwrite_add {bs b : Bytes} {o : Nat} (h : o ≤ bs.length) :
    (overwrite bs o b).drop (o + b.length) = bs.drop (o + b.length) := by
  rw [← List.drop_drop, drop_overwrite h, List.drop_append_of_le_length (le_refl _)]
  simp

/-- Write `b` at offset `o` inside or at the end of the file. -/
def writeAt (f : File) (o : Nat) (b : Bytes) (ho : o ≤ f.bytes.length)
    (hb : o + b.length ≤ maxLen) : File :=
  ⟨overwrite f.bytes o b, by
    have := f.fits
    rw [length_overwrite ho]
    omega⟩

/-- `File::set_len`: cut, or extend with zeros. -/
def setLen (f : File) (n : Nat) (hn : n ≤ maxLen) : File :=
  ⟨f.bytes.take n ++ List.replicate (n - f.bytes.length) 0, by
    simp only [List.length_append, List.length_take, List.length_replicate]
    omega⟩

end File

/-! ## FileStorage -/

/-- Outcome of one `write_all` and the `sync_all` after it. -/
inductive WriteOutcome where
  | done
  | writeFail (persisted : Nat)
  | syncFail
deriving DecidableEq, Repr

/-- Outcomes of the coming calls: writes, reads, and truncations. A list that has run out stands for
calls that succeed. -/
structure IoPlan where
  writes : List WriteOutcome
  reads : List Bool
  cuts : List Bool
deriving DecidableEq, Repr

namespace IoPlan

/-- The plan of an operating system that does not fail. -/
def noFaults : IoPlan := ⟨[], [], []⟩

/-- The plan after one write. -/
def afterWrite (p : IoPlan) : IoPlan := { p with writes := p.writes.tail }

/-- The plan after one read. -/
def afterRead (p : IoPlan) : IoPlan := { p with reads := p.reads.tail }

/-- The plan after one truncation. -/
def afterCut (p : IoPlan) : IoPlan := { p with cuts := p.cuts.tail }

end IoPlan

/-- `FileStorage`: the file, the length the backend believes in, and the outcomes of the coming
calls. -/
structure FileStorage where
  path : String
  file : File
  len : Nat
  plan : IoPlan
  len_le : len ≤ file.bytes.length

namespace FileStorage

/-- A new file, with its header. -/
def fresh (path : String) (plan : IoPlan) : FileStorage :=
  ⟨path, ⟨header, by decide⟩, headerLen, plan, le_refl _⟩

/-- `FileStorage::open`. A new file gets the header; an existing one has its header checked. -/
def openFile (path : String) (file : File) (plan : IoPlan) : Except StorageError FileStorage :=
  if file.bytes.length = 0 then .ok (fresh path plan)
  else if file.bytes.length < headerLen then
    .error (.shortHeader path file.bytes.length headerLen)
  else if file.bytes.take magic.length ≠ magic then .error (.badMagic path)
  else if fromLe32 (file.bytes.drop magic.length) ≠ formatVersion then
    .error (.badVersion path (fromLe32 (file.bytes.drop magic.length)) formatVersion)
  else .ok ⟨path, file, file.bytes.length, plan, le_refl _⟩

/-- Opening an existing store: all of the file is the store. -/
theorem openFile_of_header (path : String) {file : File} {rest : Bytes} (plan : IoPlan)
    (h : file.bytes = header ++ rest) :
    openFile path file plan = .ok ⟨path, file, file.bytes.length, plan, le_refl _⟩ := by
  have hlen : file.bytes.length = headerLen + rest.length := by
    rw [h, List.length_append, length_header]
  have hmagic : file.bytes.take magic.length = magic := by
    rw [h]
    rfl
  have hversion : fromLe32 (file.bytes.drop magic.length) = formatVersion := by
    rw [h]
    rfl
  have hpos : headerLen = 16 := rfl
  unfold openFile
  rw [if_neg (by omega), if_neg (by omega), if_neg (by simp [hmagic]), if_neg (by simp [hversion])]

/-- Write `b` at the backend's length without moving that length. -/
def scribble (s : FileStorage) (b : Bytes) (h : s.len + b.length ≤ maxLen) (plan : IoPlan) :
    FileStorage :=
  { path := s.path
    file := s.file.writeAt s.len b s.len_le h
    len := s.len
    plan := plan
    len_le := by
      show s.len ≤ (File.overwrite s.file.bytes s.len b).length
      rw [File.length_overwrite s.len_le]
      have := s.len_le
      omega }

/-- Move the backend's length past `n` more bytes of the file. -/
def advance (s : FileStorage) (n : Nat) (h : s.len + n ≤ s.file.bytes.length) : FileStorage :=
  { s with len := s.len + n, len_le := h }

/-- `FileStorage::append`. A failed `write_all` has persisted a prefix of the bytes, a failed
`sync_all` all of them; the length moves only on success. A write past the largest file fails before
its first byte. -/
def append (b : Bytes) : EStateM StorageError FileStorage Nat := fun s =>
  if h : s.len + b.length ≤ maxLen then
    match s.plan.writes.head? with
    | none | some .done =>
        .ok s.len ((s.scribble b h s.plan.afterWrite).advance b.length (by
          show s.len + b.length ≤ (File.overwrite s.file.bytes s.len b).length
          rw [File.length_overwrite s.len_le]
          omega))
    | some (.writeFail persisted) =>
        .error (.io s.path "write_all")
          (s.scribble (b.take persisted) (by
            have := List.length_take_le' persisted b
            omega) s.plan.afterWrite)
    | some .syncFail => .error (.io s.path "sync_all") (s.scribble b h s.plan.afterWrite)
  else .error (.io s.path "file too large") { s with plan := s.plan.afterWrite }

/-- `FileStorage::read_at`: a `seek`, which may go past the end of the file, and a `read_exact`,
which reads nothing into an empty buffer. The buffer comes first: one longer than `isize::MAX`
panics in the code, and is recorded as a failed read, since no file is that long. -/
def readAt (o n : Nat) : EStateM StorageError FileStorage Bytes := fun s =>
  match s.plan.reads.head? with
  | some false => .error (.io s.path "read_exact") { s with plan := s.plan.afterRead }
  | _ =>
      if maxLen < o then
        .error (.io s.path "invalid seek") { s with plan := s.plan.afterRead }
      else if 0 < n ∧ s.file.bytes.length < o + n then
        .error (.io s.path "failed to fill whole buffer") { s with plan := s.plan.afterRead }
      else .ok (slice o n s.file.bytes) { s with plan := s.plan.afterRead }

/-- `FileStorage::truncate`. -/
def truncate (n : Nat) : EStateM StorageError FileStorage Unit := fun s =>
  if n < headerLen then .error (.truncateBelowHeader n headerLen) s
  else
    match s.plan.cuts.head? with
    | some false => .error (.io s.path "set_len") { s with plan := s.plan.afterCut }
    | _ =>
        if h : n ≤ maxLen then
          .ok () ⟨s.path, s.file.setLen n h, n, s.plan.afterCut, by
            simp only [File.setLen, List.length_append, List.length_take, List.length_replicate]
            omega⟩
        else .error (.io s.path "set_len") { s with plan := s.plan.afterCut }

instance : Storage FileStorage where
  append := append
  readAt := readAt
  len s := s.len
  truncate := truncate

/-- The bytes below the backend's length. -/
def contents (s : FileStorage) : Bytes := s.file.bytes.take s.len

/-- The bytes past the backend's length: leftovers of failed appends. -/
def stale (s : FileStorage) : Bytes := s.file.bytes.drop s.len

/-- Reads and truncations do not fail. -/
def Reliable (s : FileStorage) : Prop := s.plan.reads = [] ∧ s.plan.cuts = []

theorem length_contents (s : FileStorage) : s.contents.length = s.len := by
  simp [contents, s.len_le]

theorem contents_append_stale (s : FileStorage) : s.contents ++ s.stale = s.file.bytes :=
  List.take_append_drop _ _

theorem contents_scribble (s : FileStorage) (b : Bytes) (h : s.len + b.length ≤ maxLen)
    (plan : IoPlan) : (s.scribble b h plan).contents = s.contents :=
  File.take_overwrite s.len_le

theorem stale_scribble (s : FileStorage) (b : Bytes) (h : s.len + b.length ≤ maxLen)
    (plan : IoPlan) : (s.scribble b h plan).stale = b ++ s.stale.drop b.length := by
  show (File.overwrite s.file.bytes s.len b).drop s.len = _
  rw [File.drop_overwrite s.len_le, stale, List.drop_drop]

/-- How many bytes of `b` an append persists, whether it succeeds or not. -/
def written (s : FileStorage) (b : Bytes) : Nat :=
  if s.len + b.length ≤ maxLen then
    match s.plan.writes.head? with
    | some (.writeFail persisted) => min persisted b.length
    | _ => b.length
  else 0

/-- A successful append moves the frame into the contents and leaves the part of the stale bytes it
did not cover. -/
theorem append_eq_ok {b : Bytes} {s s' : FileStorage} {off : Nat} (h : append b s = .ok off s') :
    off = s.len ∧ s'.contents = s.contents ++ b ∧ s'.stale = s.stale.drop b.length ∧
      s'.plan = s.plan.afterWrite ∧ s.written b = b.length := by
  have hstale : (File.overwrite s.file.bytes s.len b).drop (s.len + b.length) =
      s.stale.drop b.length := by
    rw [File.drop_overwrite_add s.len_le, stale, List.drop_drop]
  unfold append at h
  split at h
  · rename_i hfits
    split at h
    · rename_i hhead
      cases h
      exact ⟨rfl, File.take_overwrite_add s.len_le, hstale, rfl, by simp [written, hfits, hhead]⟩
    · rename_i hhead
      cases h
      exact ⟨rfl, File.take_overwrite_add s.len_le, hstale, rfl, by simp [written, hfits, hhead]⟩
    · cases h
    · cases h
  · cases h

/-- A failed append leaves the contents, and what it wrote over the stale bytes. -/
theorem append_eq_error {b : Bytes} {s s' : FileStorage} {err : StorageError}
    (h : append b s = .error err s') :
    s'.contents = s.contents ∧
      s'.plan = s.plan.afterWrite ∧
      s'.stale = b.take (s.written b) ++ s.stale.drop (s.written b) := by
  unfold append at h
  split at h
  · rename_i hfits
    split at h
    · cases h
    · cases h
    · rename_i persisted hhead
      cases h
      have hw : s.written b = min persisted b.length := by simp [written, hfits, hhead]
      refine ⟨contents_scribble _ _ _ _, rfl, ?_⟩
      rw [stale_scribble, List.length_take, List.take_eq_take_min, hw]
    · rename_i hhead
      cases h
      have hw : s.written b = b.length := by simp [written, hfits, hhead]
      refine ⟨contents_scribble _ _ _ _, rfl, ?_⟩
      rw [stale_scribble, hw, List.take_length]
  · rename_i hfits
    cases h
    exact ⟨rfl, rfl, by simp [written, hfits, stale]⟩

theorem readAt_state (o n : Nat) (s : FileStorage) :
    finalState (readAt o n s) = { s with plan := s.plan.afterRead } := by
  unfold readAt
  split
  · rfl
  split
  · rfl
  split
  · rfl
  · rfl

theorem readAt_eq_ok {o n : Nat} {s s' : FileStorage} {bs : Bytes}
    (h : readAt o n s = .ok bs s') : bs = slice o n s.file.bytes := by
  unfold readAt at h
  split at h
  · cases h
  split at h
  · cases h
  split at h
  · cases h
  · cases h
    rfl

theorem readAt_of_reliable {o n : Nat} {s : FileStorage} (hs : s.Reliable)
    (h : o + n ≤ s.contents.length) : ∃ bs s', readAt o n s = .ok bs s' := by
  have hlen := s.length_contents
  have hle := s.len_le
  have hfits := s.file.fits
  refine ⟨slice o n s.file.bytes, { s with plan := s.plan.afterRead }, ?_⟩
  unfold readAt
  rw [hs.1]
  simp only [List.head?_nil]
  rw [if_neg (by omega), if_neg (by omega)]

theorem truncate_eq_ok {n : Nat} {s s' : FileStorage} (h : truncate n s = .ok () s')
    (hn : n ≤ s.contents.length) :
    s'.contents = s.contents.take n ∧ s'.stale = [] ∧
      s'.plan = s.plan.afterCut := by
  have hlen := s.length_contents
  have hle := s.len_le
  unfold truncate at h
  split at h
  · cases h
  · split at h
    · cases h
    · split at h
      · cases h
        refine ⟨?_, ?_, rfl⟩
        · show (s.file.bytes.take n ++ List.replicate (n - s.file.bytes.length) 0).take n = _
          rw [contents, List.take_take, Nat.min_eq_left (by omega),
            List.take_append_of_le_length (by simp; omega), List.take_take, Nat.min_self]
        · show (s.file.bytes.take n ++ List.replicate (n - s.file.bytes.length) 0).drop n = _
          apply List.drop_eq_nil_of_le
          simp only [List.length_append, List.length_take, List.length_replicate]
          omega
      · cases h

theorem truncate_of_reliable {n : Nat} {s : FileStorage} (hs : s.Reliable) (hh : headerLen ≤ n)
    (hn : n ≤ s.contents.length) : ∃ s', truncate n s = .ok () s' := by
  have hlen := s.length_contents
  have hle := s.len_le
  have hfits := s.file.fits
  unfold truncate
  rw [if_neg (by omega), hs.2]
  simp only [List.head?_nil]
  rw [dif_pos (by omega)]
  exact ⟨_, rfl⟩

instance : LawfulStorage FileStorage where
  contents := contents
  Reliable := Reliable
  len_eq s := s.length_contents.symm
  len_lt s := lt_of_le_of_lt (le_trans s.len_le s.file.fits) (by decide)
  append_ok {b s off s'} h := by
    obtain ⟨h1, h2, -, h4, -⟩ := append_eq_ok h
    refine ⟨by rw [h1, s.length_contents], h2, fun hr => ?_⟩
    rw [Reliable, h4]
    exact hr
  append_error {b s err s'} h := by
    obtain ⟨h1, h2, -⟩ := append_eq_error h
    refine ⟨h1, fun hr => ?_⟩
    rw [Reliable, h2]
    exact hr
  readAt_ok {o n s bs s'} h := by
    have hst := readAt_state o n s
    have h' : readAt o n s = .ok bs s' := h
    rw [h', finalState_ok] at hst
    subst hst
    refine ⟨rfl, fun hr => ⟨by simp [IoPlan.afterRead, hr.1], hr.2⟩, fun hle => ?_⟩
    rw [readAt_eq_ok h', ← s.contents_append_stale, slice_append_left hle]
  readAt_error {o n s err s'} h := by
    have hst := readAt_state o n s
    have h' : readAt o n s = .error err s' := h
    rw [h', finalState_error] at hst
    subst hst
    exact ⟨rfl, fun hr => ⟨by simp [IoPlan.afterRead, hr.1], hr.2⟩⟩
  readAt_reliable := readAt_of_reliable
  truncate_ok {n s s'} h hn := by
    obtain ⟨h1, -, h3⟩ := truncate_eq_ok h hn
    refine ⟨h1, fun hr => ?_⟩
    rw [Reliable, h3]
    exact ⟨hr.1, by simp [IoPlan.afterCut, hr.2]⟩
  truncate_reliable := truncate_of_reliable

end FileStorage

end Morceau
