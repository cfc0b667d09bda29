import Morceau.SchemaConformance
import Morceau.SequenceGaps

/-!
# Versions of the schema in force

`Engine::apply_schema` commits the schema it is given, and both the commit and the replay of a
`SchemaApply` record put that schema in force, whatever its version. The version in force is that of
the last push, which is the largest one only when no later push is older.

A moment of a log is the state after its first records, as an engine that is opened there sees it.
The schema in force has the largest version pushed so far at every moment of a log exactly when the
versions are pushed in order (`newest_take_iff`), and a push keeps it the newest exactly when it is
not older than a push before it (`newest_snoc_iff`).
-/

set_option autoImplicit false

namespace Morceau

open Lib LawfulStorage

/-! ## Pushed versions -/

/-- The versions of the schemas that the log pushes, in order. -/
def pushedVersions (log : List Mutation) : List Nat :=
  (log.filterMap fun m => m.op.pushedSchema).map fun s => s.version.toNat

/-- The version of the schema is the largest that the log pushes; there is no schema when it pushes
none. -/
def IsNewest (schema : Option Schema) (log : List Mutation) : Prop :=
  schema.map (fun s => s.version.toNat) = (pushedVersions log).max?

section Logs

variable {log : List Mutation} {m : Mutation} {s : Schema}

theorem pushedVersions_snoc_of_none (h : m.op.pushedSchema = none) :
    pushedVersions (log ++ [m]) = pushedVersions log := by
  simp [pushedVersions, List.filterMap_append, h]

theorem pushedVersions_snoc_of_some (h : m.op.pushedSchema = some s) :
    pushedVersions (log ++ [m]) = pushedVersions log ++ [s.version.toNat] := by
  simp [pushedVersions, List.filterMap_append, h]

/-- A record that pushes nothing changes nothing. -/
theorem newest_snoc_of_none (h : m.op.pushedSchema = none) :
    IsNewest (lastSchema (log ++ [m])) (log ++ [m]) ↔ IsNewest (lastSchema log) log := by
  rw [IsNewest, IsNewest, lastSchema_snoc, pushedVersions_snoc_of_none h, h, Option.none_or]

/-- A push is the newest exactly when no push before it has a larger version. -/
theorem newest_snoc_iff (h : m.op.pushedSchema = some s) :
    IsNewest (lastSchema (log ++ [m])) (log ++ [m]) ↔
      ∀ v ∈ pushedVersions log, v ≤ s.version.toNat := by
  rw [IsNewest, lastSchema_snoc, pushedVersions_snoc_of_some h, h, Option.some_or, Option.map_some,
    eq_comm, List.max?_eq_some_iff]
  constructor
  · rintro ⟨-, hall⟩ v hv
    exact hall v (List.mem_append_left _ hv)
  · intro hall
    refine ⟨List.mem_append_right _ (List.mem_singleton_self _), fun v hv => ?_⟩
    rcases List.mem_append.1 hv with hv | hv
    · exact hall v hv
    · exact (List.mem_singleton.1 hv).le

/-- What holds at every moment of a longer log. -/
theorem forall_take_snoc {Q : List Mutation → Prop} :
    (∀ n, Q ((log ++ [m]).take n)) ↔ (∀ n, Q (log.take n)) ∧ Q (log ++ [m]) := by
  constructor
  · intro h
    refine ⟨fun n => ?_, ?_⟩
    · have hn := h (min n log.length)
      rwa [List.take_append_of_le_length (Nat.min_le_right _ _), ← List.take_take,
        List.take_length] at hn
    · have hn := h (log ++ [m]).length
      rwa [List.take_length] at hn
  · rintro ⟨hlog, hall⟩ n
    rcases Nat.lt_or_ge log.length n with hn | hn
    · rw [List.take_of_length_le (by rw [List.length_append]; exact hn)]
      exact hall
    · rw [List.take_append_of_le_length hn]
      exact hlog n

/-- The schema in force is the newest at every moment exactly when the versions never decrease. -/
theorem newest_take_iff (log : List Mutation) :
    (∀ n, IsNewest (lastSchema (log.take n)) (log.take n)) ↔
      (pushedVersions log).Pairwise (· ≤ ·) := by
  induction log using List.reverseRecOn with
  | nil =>
      refine ⟨fun _ => List.Pairwise.nil, fun _ n => ?_⟩
      rw [List.take_nil]
      rfl
  | append_singleton log m ih =>
      rw [forall_take_snoc (Q := fun l => IsNewest (lastSchema l) l), ih]
      cases h : m.op.pushedSchema with
      | none =>
          rw [newest_snoc_of_none h, pushedVersions_snoc_of_none h]
          refine ⟨And.left, fun hlog => ⟨hlog, ?_⟩⟩
          have hnow := ih.2 hlog log.length
          rwa [List.take_length] at hnow
      | some s =>
          rw [newest_snoc_iff h, pushedVersions_snoc_of_some h, List.pairwise_append]
          simp

end Logs

/-! ## Runs -/

variable {σ : Type} [LawfulStorage σ] {P : Platform}

/-- The schema in force along a run with any calls, failing appends, crashes and reopens. It is the
last one that the log on the store pushes. It has the largest version at every moment of the log
exactly when the versions in the log never decrease. A push that succeeds is put in force, and is
the newest exactly when no version in the log is larger. -/
theorem schema_in_force_newest_iff {e : Engine σ} (h : LossyReach P e) :
    ∃ log, contents e.storage = header ++ encodeLog P log ∧ (∀ m ∈ log, P.Encodable m) ∧
      e.currentSchema = lastSchema log ∧
      ((∀ n, IsNewest (lastSchema (log.take n)) (log.take n)) ↔
        (pushedVersions log).Pairwise (· ≤ ·)) ∧
      ∀ s e', (Call.op (.applySchema s)).run P e = .ok () e' →
        ∃ m, m.op = .schemaApply s ∧
          contents e'.storage = header ++ encodeLog P (log ++ [m]) ∧
          e'.currentSchema = some s ∧
          (IsNewest e'.currentSchema (log ++ [m]) ↔
            ∀ v ∈ pushedVersions log, v ≤ s.version.toNat) := by
  obtain ⟨l, hl⟩ := h.tallied
  have hcore := hl.booked.core
  refine ⟨l.log, by simpa [storeImage] using hcore.contents, hcore.encodable,
    hcore.currentSchema, newest_take_iff l.log, fun s e' hrun => ?_⟩
  have hcommit : Engine.commit P (.schemaApply s) e = .ok () e' := adaptExcept_eq_ok_iff.1 hrun
  have hfresh : Fresh e (.schemaApply s) := trivial
  have hcore' := (hcore.committed hfresh hcommit).core
  have hpush : (stamp e (.schemaApply s)).op.pushedSchema = some s := rfl
  refine ⟨stamp e (.schemaApply s), rfl, by simpa [storeImage] using hcore'.contents, ?_, ?_⟩
  · rw [hcore'.currentSchema, lastSchema_snoc, hpush, Option.some_or]
  · rw [hcore'.currentSchema]
    exact newest_snoc_iff hpush

/-- A schema without tables. -/
def bareSchema (version : UInt64) : Schema := ⟨version, ∅⟩

/-- The engine after the versions were pushed to a new store. -/
def versionsPushed (versions : List UInt64) : Engine MemoryStorage :=
  inMemory (versions.map fun v => .op (.applySchema (bareSchema v)))

theorem lossyReach_versionsPushed (versions : List UInt64) :
    LossyReach bincode (versionsPushed versions) :=
  Call.runAll_induction (fun c _ h => LossyReach.call c h) _
    (LossyReach.fresh (s := MemoryStorage.new) rfl trivial rfl)

/-- The record of the push with a sequence number. -/
def pushRecord (n version : UInt64) : Mutation :=
  ⟨n, ⟨"u", "d"⟩, true, .schemaApply (bareSchema version)⟩

/-- Version 2 pushed after version 1 is the newest at every moment. -/
theorem push_in_order_is_newest :
    (versionsPushed [1, 2]).storage.bytes =
        header ++ encodeLog bincode [pushRecord 1 1, pushRecord 2 2] ∧
      ∀ n, IsNewest (lastSchema ([pushRecord 1 1, pushRecord 2 2].take n))
        ([pushRecord 1 1, pushRecord 2 2].take n) := by
  have hstore : (versionsPushed [1, 2]).storage.bytes =
      header ++ encodeLog bincode [pushRecord 1 1, pushRecord 2 2] := by decide +kernel
  obtain ⟨log, hc, henc, -, hiff, -⟩ :=
    schema_in_force_newest_iff (lossyReach_versionsPushed [1, 2])
  have hlog : log = [pushRecord 1 1, pushRecord 2 2] := by
    refine encodeLog_inj henc ?_ (List.append_cancel_left (hc.symm.trans hstore))
    exact List.forall_mem_cons.2 ⟨⟨_, rfl⟩, List.forall_mem_singleton.2 ⟨_, rfl⟩⟩
  rw [hlog] at hiff
  exact ⟨hstore, hiff.2 (by decide)⟩

/-- Version 1 pushed after version 2 replaces it. -/
theorem late_push_replaces_newer :
    LossyReach bincode (versionsPushed [2, 1]) ∧
      (versionsPushed [2, 1]).storage.bytes =
        header ++ encodeLog bincode [pushRecord 1 2, pushRecord 2 1] ∧
      (versionsPushed [2, 1]).currentSchema = some (bareSchema 1) ∧
      (pushedVersions [pushRecord 1 2, pushRecord 2 1]).max? = some 2 ∧
      ¬ IsNewest (versionsPushed [2, 1]).currentSchema [pushRecord 1 2, pushRecord 2 1] := by
  have hcur : (versionsPushed [2, 1]).currentSchema = some (bareSchema 1) := by decide +kernel
  have hmax : (pushedVersions [pushRecord 1 2, pushRecord 2 1]).max? = some 2 := by decide
  refine ⟨lossyReach_versionsPushed _, by decide +kernel, hcur, hmax, ?_⟩
  rw [IsNewest, hcur, hmax]
  decide

end Morceau
