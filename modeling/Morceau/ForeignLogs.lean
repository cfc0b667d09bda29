import Morceau.HostStores

/-!
# Logs that this engine did not write

`Engine::recover` replays whatever frames the store holds, and the sequence numbers in them are not
checked. The counter is raised to one past every number it does not exceed, in `u64`: for the
largest number the sum wraps to zero, in a build without overflow checks.

`Framed P bytes log` says that the bytes are frames, one after the other, that decode to the records
of `log`; the payloads need not be encodings that this engine would write. Whatever a store holds,
if it opens then the store is left as such a sequence of frames, a store that was one already is
left as it was, and the counter is what its records determine (`openWith_framed`). It is larger than
every sequence number of the log exactly when none of them is the largest `u64`
(`opened_counter_fresh_iff`).
-/

set_option autoImplicit false

namespace Morceau

open Lib LawfulStorage

variable {P : Platform}

/-! ## Sequences of frames -/

/-- The bytes are frames that decode to the records. -/
inductive Framed (P : Platform) : Bytes → List Mutation → Prop where
  | nil : Framed P [] []
  | cons {b rest : Bytes} {m : Mutation} {log : List Mutation} :
      decodeFramed P b = .ok (some (m, b.length)) → Framed P rest log →
      Framed P (b ++ rest) (m :: log)

/-- Bytes that decode as a whole are as long as their length prefix says. -/
theorem length_of_decodeFramed {b : Bytes} {m : Mutation}
    (h : decodeFramed P b = .ok (some (m, b.length))) :
    4 ≤ b.length ∧ b.length = 4 + fromLe32 b := by
  unfold decodeFramed at h
  split at h
  · cases h
  split at h
  · cases h
  rename_i h4
  split at h
  · cases h
  split at h
  · cases h
  · injection h with h
    injection h with h
    simp only [lenPrefixBytes, not_lt] at h4
    exact ⟨h4, (congrArg Prod.snd h).symm⟩

/-- Bytes as long as their length prefix says decode as a whole, or not at all. -/
theorem decodeFramed_whole {b : Bytes} (h4 : 4 ≤ b.length) (hlen : b.length = 4 + fromLe32 b) :
    (∃ m, decodeFramed P b = .ok (some (m, b.length))) ∨
      ∃ err, decodeFramed P b = .error err := by
  have hne : b.isEmpty = false := by
    cases b with
    | nil => cases h4
    | cons x xs => rfl
  rw [decodeFramed, hne, if_neg Bool.false_ne_true, if_neg (by simp only [lenPrefixBytes]; omega),
    if_neg (by simp only [lenPrefixBytes]; omega)]
  cases P.decode (slice lenPrefixBytes (fromLe32 b) b) with
  | error err => exact Or.inr ⟨_, rfl⟩
  | ok m =>
      rw [hlen]
      exact Or.inl ⟨m, rfl⟩

/-- The bytes that a length prefix announces, cut out of a rest that has them. -/
theorem length_of_take {rest b : Bytes} (h4 : 4 ≤ rest.length)
    (hfits : lenPrefixBytes + fromLe32 rest ≤ rest.length)
    (hb : b = rest.take (lenPrefixBytes + fromLe32 rest)) :
    b.length = lenPrefixBytes + fromLe32 rest ∧ b.length = 4 + fromLe32 b := by
  have hlen : b.length = lenPrefixBytes + fromLe32 rest := by
    rw [hb, List.length_take, Nat.min_eq_left hfits]
  have hprefix : fromLe32 b = fromLe32 rest := by
    rw [hb]
    exact fromLe32_take (Nat.le_add_right _ _) h4
  refine ⟨hlen, ?_⟩
  rw [hlen, hprefix]
  rfl

namespace Framed

theorem snoc {bytes b : Bytes} {log : List Mutation} {m : Mutation} (h : Framed P bytes log)
    (hb : decodeFramed P b = .ok (some (m, b.length))) : Framed P (bytes ++ b) (log ++ [m]) := by
  induction h with
  | nil => simpa using Framed.cons hb .nil
  | cons hfirst _ ih =>
      rw [List.append_assoc]
      exact .cons hfirst ih

/-- Non-empty frames do not start with a torn tail. -/
theorem not_torn {bytes : Bytes} {log : List Mutation} (h : Framed P bytes log)
    (hne : bytes ≠ []) : ¬ Torn bytes := by
  cases h with
  | nil => exact absurd rfl hne
  | @cons b rest m log hb hrest =>
      obtain ⟨h4, hlen⟩ := length_of_decodeFramed hb
      rw [Torn, fromLe32_append h4, List.length_append]
      omega

/-- Frames are self-delimiting: what follows the frames of a first part are the other frames. -/
theorem split {pre post : Bytes} {first : List Mutation} (hpre : Framed P pre first) :
    ∀ {log : List Mutation}, Framed P (pre ++ post) log →
      ∃ others, Framed P post others ∧ log = first ++ others := by
  induction hpre with
  | nil => exact fun {log} hlog => ⟨log, hlog, rfl⟩
  | @cons b rest m first hb _ ih =>
      intro log hlog
      obtain ⟨h4, hlen⟩ := length_of_decodeFramed hb
      rw [List.append_assoc] at hlog
      generalize hall : b ++ (rest ++ post) = all at hlog
      cases hlog with
      | nil =>
          have hnil := congrArg List.length hall
          simp only [List.length_append, List.length_nil] at hnil
          omega
      | @cons b' rest' m' log' hb' hlog' =>
          obtain ⟨h4', hlen'⟩ := length_of_decodeFramed hb'
          -- the two first frames begin with one length prefix
          have hsame : b.length = b'.length := by
            rw [hlen, hlen', ← fromLe32_append h4 (rest ++ post), hall, fromLe32_append h4']
          obtain ⟨rfl, rfl⟩ := List.append_inj hall hsame
          rw [hb] at hb'
          injection hb' with hm
          injection hm with hm
          obtain ⟨others, hothers, rfl⟩ := ih hlog'
          exact ⟨others, hothers, by rw [(Prod.mk.inj hm).1]; rfl⟩

theorem eq_nil {bytes : Bytes} {log : List Mutation} (h : Framed P bytes log)
    (hnil : bytes = []) : log = [] := by
  cases h with
  | nil => rfl
  | @cons b rest m log hb _ =>
      have hlen := congrArg List.length hnil
      have h4 := (length_of_decodeFramed hb).1
      simp only [List.length_append, List.length_nil] at hlen
      omega

/-- The bytes determine the records. -/
theorem unique {bytes : Bytes} {log log' : List Mutation} (h : Framed P bytes log)
    (h' : Framed P bytes log') : log' = log := by
  rw [← List.append_nil bytes] at h'
  obtain ⟨others, hothers, rfl⟩ := h.split h'
  rw [hothers.eq_nil rfl, List.append_nil]

end Framed

/-! ## The counter of a log -/

/-- The counter is 1 or one past a number of the log, in `u64`. -/
theorem replaySeq_cases (log : List Mutation) :
    replaySeq log = 1 ∨ ∃ m ∈ log, replaySeq log = m.localSeq + 1 := by
  induction log using List.reverseRecOn with
  | nil => exact Or.inl rfl
  | append_singleton log m ih =>
      rw [replaySeq_snoc, seqStep]
      split
      · exact Or.inr ⟨m, by simp, rfl⟩
      · obtain h | ⟨x, hx, h⟩ := ih
        · exact Or.inl h
        · exact Or.inr ⟨x, List.mem_append_left _ hx, h⟩

/-- As long as no number is the largest, the counter does not wrap and stays past all of them. -/
theorem lt_replaySeq {log : List Mutation} (h : ∀ m ∈ log, m.localSeq.toNat ≠ 2 ^ 64 - 1) :
    ∀ m ∈ log, m.localSeq.toNat < (replaySeq log).toNat := by
  induction log using List.reverseRecOn with
  | nil => exact fun m hm => nomatch hm
  | append_singleton log m ih =>
      have ih := ih fun x hx => h x (List.mem_append_left _ hx)
      have hmax := h m (by simp)
      have hlt := m.localSeq.toNat_lt
      have hsucc : (m.localSeq + 1).toNat = m.localSeq.toNat + 1 := by
        rw [UInt64.toNat_add]
        exact Nat.mod_eq_of_lt (by simp only [UInt64.toNat_one]; omega)
      intro x hx
      rw [replaySeq_snoc, seqStep]
      -- the counter is raised past `m`, or was past it already
      split
      · rename_i hle
        rw [UInt64.le_iff_toNat_le] at hle
        rcases List.mem_append.1 hx with hx | hx
        · have := ih x hx
          omega
        · rw [List.mem_singleton.1 hx, hsucc]
          omega
      · rename_i hle
        rw [UInt64.le_iff_toNat_le] at hle
        rcases List.mem_append.1 hx with hx | hx
        · exact ih x hx
        · rw [List.mem_singleton.1 hx]
          omega

/-- The counter is past every number exactly when none of them is the largest. -/
theorem lt_replaySeq_iff (log : List Mutation) :
    (∀ m ∈ log, m.localSeq < replaySeq log) ↔ ∀ m ∈ log, m.localSeq.toNat ≠ 2 ^ 64 - 1 := by
  constructor
  · intro h m hm hmax
    have hlt := UInt64.lt_iff_toNat_lt.1 (h m hm)
    have hbound := (replaySeq log).toNat_lt
    omega
  · intro h m hm
    exact UInt64.lt_iff_toNat_lt.2 (lt_replaySeq h m hm)

/-! ## Replaying what the store holds -/

variable {σ : Type} [LawfulStorage σ]

/-- State of the replay loop at `cursor`: the bytes before it are the frames of `done`. -/
structure Walked (P : Platform) (bytes : Bytes) (cursor : Nat) (e : Engine σ)
    (done : List Mutation) : Prop where
  contents : LawfulStorage.contents e.storage = bytes
  framed : Framed P ((bytes.take cursor).drop headerLen) done
  nextLocalSeq : e.nextLocalSeq = replaySeq done
  header_le : headerLen ≤ cursor

/-- A read that succeeds inside the store gives the bytes there and changes nothing else. -/
theorem Walked.readAt {bytes : Bytes} {cursor n : Nat} {e e' : Engine σ} {done : List Mutation}
    (h : Walked P bytes cursor e done) {b : Bytes} (hle : cursor + n ≤ bytes.length)
    (hr : Engine.liftStorage (Storage.readAt cursor n) e = .ok b e') :
    b = (bytes.drop cursor).take n ∧ Walked P bytes cursor e' done := by
  cases hs : Storage.readAt cursor n e.storage with
  | error err s' =>
      rw [Engine.liftStorage_of_error hs] at hr
      cases hr
  | ok bs s' =>
      rw [Engine.liftStorage_of_ok hs] at hr
      cases hr
      obtain ⟨hc, -, hslice⟩ := readAt_ok hs
      rw [h.contents] at hc hslice
      exact ⟨hslice hle, hc, h.framed, h.nextLocalSeq, h.header_le⟩

/-- Applying a frame that decodes. -/
theorem Walked.apply {bytes b : Bytes} {cursor : Nat} {e e' : Engine σ} {done : List Mutation}
    {m : Mutation} {len : Nat} (h : Walked P bytes cursor e done)
    (hb : b = (bytes.drop cursor).take b.length)
    (hdec : decodeFramed P b = .ok (some (m, b.length))) (hlt : cursor < bytes.length)
    (happ : Engine.applyRecovered P m cursor len e = .ok () e') :
    Walked P bytes (cursor + b.length) (seenSeq m e') (done ++ [m]) := by
  have hkeeps := updateIndexesFor_keeps (P := P) m.op cursor len m.foreshadow e
  have happ' : Engine.updateIndexesFor P m.op cursor len m.foreshadow e = .ok () e' := happ
  rw [happ'] at hkeeps
  obtain ⟨hc, hseq⟩ := hkeeps
  simp only [finalState_ok] at hc hseq
  have hstorage : (seenSeq m e').storage = e'.storage := by
    rw [seenSeq]
    split
    · rfl
    · rfl
  refine ⟨?_, ?_, ?_, h.header_le.trans (Nat.le_add_right _ _)⟩
  · rw [hstorage, hc, h.contents]
  · have hheader : headerLen ≤ (bytes.take cursor).length := by
      have := h.header_le
      rw [List.length_take]
      omega
    rw [List.take_add, ← hb, List.drop_append_of_le_length hheader]
    exact h.framed.snoc hdec
  · rw [replaySeq_snoc, seqStep, ← h.nextLocalSeq, ← hseq, seenSeq]
    split
    · rfl
    · rfl

/-- Cutting the store at the cursor keeps the frames before it and the counter. -/
theorem Walked.truncate {bytes : Bytes} {cursor : Nat} {e e' : Engine σ} {done : List Mutation}
    (h : Walked P bytes cursor e done) (hle : cursor ≤ bytes.length)
    (ht : Engine.liftStorage (Storage.truncate cursor) e = .ok () e') :
    LawfulStorage.contents e'.storage = bytes.take cursor ∧
      e'.nextLocalSeq = e.nextLocalSeq := by
  cases hs : Storage.truncate cursor e.storage with
  | error err s' =>
      rw [Engine.liftStorage_of_error hs] at ht
      cases ht
  | ok u s' =>
      rw [Engine.liftStorage_of_ok hs] at ht
      cases ht
      have hcut := (truncate_ok hs (h.contents ▸ hle)).1
      rw [h.contents] at hcut
      exact ⟨hcut, rfl⟩

/-- The loop stops before a torn tail, or past the end; before a tail that is longer than a length
prefix it cuts the store itself. -/
theorem recoverLoop_walked {bytes : Bytes} (fuel : Nat) :
    ∀ {cursor : Nat} {e e' : Engine σ} {done : List Mutation} {r : Option (Nat × Nat)},
      Walked P bytes cursor e done → bytes.length - cursor ≤ fuel →
      Engine.recoverLoop P bytes.length fuel cursor cursor e = .ok r e' →
      ∃ stop e1 log, Walked P bytes stop e1 log ∧ Torn (bytes.drop stop) ∧
        (r = some (stop, stop) ∧ e' = e1 ∨ r = none ∧ stop < bytes.length ∧
          Engine.liftStorage (Storage.truncate stop) e1 = .ok () e') := by
  induction fuel with
  | zero =>
      intro cursor e e' done r h hfuel hrun
      cases hrun
      refine ⟨cursor, e, done, h, ?_, Or.inl ⟨rfl, rfl⟩⟩
      exact Or.inl (by rw [List.length_drop]; omega)
  | succ fuel ih =>
      intro cursor e e' done r h hfuel hrun
      rw [Engine.recoverLoop] at hrun
      by_cases hc : cursor < bytes.length
      case neg =>
        rw [if_neg hc] at hrun
        cases hrun
        refine ⟨cursor, e, done, h, ?_, Or.inl ⟨rfl, rfl⟩⟩
        exact Or.inl (by rw [List.length_drop]; omega)
      rw [if_pos hc] at hrun
      by_cases hshort : bytes.length - cursor < lenPrefixBytes
      case pos =>
        rw [if_pos hshort] at hrun
        cases hrun
        refine ⟨cursor, e, done, h, ?_, Or.inl ⟨rfl, rfl⟩⟩
        exact Or.inl (by rw [List.length_drop]; exact hshort)
      rw [if_neg hshort] at hrun
      have h4 : 4 ≤ (bytes.drop cursor).length := by
        rw [List.length_drop]
        exact Nat.le_of_not_lt hshort
      obtain ⟨lenBytes, e1, hr1, hrun⟩ := bind_eq_ok_iff.1 hrun
      obtain ⟨rfl, h1⟩ := h.readAt (by omega) hr1
      -- the prefix that was read is the prefix of the rest of the store
      rw [fromLe32_take (by decide) h4] at hrun
      by_cases htorn : bytes.length - cursor < lenPrefixBytes + fromLe32 (bytes.drop cursor)
      case pos =>
        rw [if_pos htorn] at hrun
        obtain ⟨u, e2, htr, hrun⟩ := bind_eq_ok_iff.1 hrun
        cases hrun
        refine ⟨cursor, e1, done, h1, ?_, Or.inr ⟨rfl, hc, htr⟩⟩
        exact Or.inr (by rw [List.length_drop]; exact htorn)
      rw [if_neg htorn] at hrun
      obtain ⟨b, e2, hr2, hrun⟩ := bind_eq_ok_iff.1 hrun
      obtain ⟨hb, h2⟩ := h1.readAt (by omega) hr2
      have hfits : lenPrefixBytes + fromLe32 (bytes.drop cursor) ≤ (bytes.drop cursor).length := by
        rw [List.length_drop]
        exact Nat.le_of_not_lt htorn
      obtain ⟨hlen, hwhole⟩ := length_of_take h4 hfits hb
      obtain ⟨m, hdec⟩ | ⟨err, hdec⟩ := decodeFramed_whole (P := P) (by omega) hwhole
      case inr =>
        rw [hdec] at hrun
        cases hrun
      rw [hdec] at hrun
      obtain ⟨u, e3, happ, hrun⟩ := bind_eq_ok_iff.1 hrun
      rw [bind_of_ok (modify_apply _ _), ← hlen] at hrun
      exact ih (h2.apply (by rw [hlen]; exact hb) hdec hc happ) (by omega) hrun

/-- A store that opens is left as the frames before a torn tail, and the counter is what their
records determine. -/
theorem openWith_framed {actor : ActorId} {s : σ} {e : Engine σ}
    (hopen : Engine.openWith P actor s = .ok e) :
    ∃ stop log, contents e.storage = (contents s).take stop ∧ headerLen ≤ stop ∧
      Torn ((contents s).drop stop) ∧ Framed P ((contents e.storage).drop headerLen) log ∧
      e.nextLocalSeq = replaySeq log := by
  have hrecover : Engine.recover P (Engine.blank actor s) = .ok () e := by
    rw [Engine.openWith] at hopen
    split at hopen
    · rename_i u e1 hr
      cases hopen
      exact hr
    · cases hopen
  have hstart : Walked P (contents s) headerLen (Engine.blank actor s) [] := by
    refine ⟨rfl, ?_, rfl, Nat.le_refl _⟩
    rw [List.drop_eq_nil_of_le (List.length_take_le _ _)]
    exact .nil
  rw [Engine.recover, bind_of_ok (get_apply _)] at hrecover
  have hlen : Storage.len (Engine.blank actor s).storage = (contents s).length := len_eq s
  rw [hlen] at hrecover
  obtain ⟨r, e1, hloop, hend⟩ := bind_eq_ok_iff.1 hrecover
  obtain ⟨stop, e2, log, h2, htorn, hstop⟩ :=
    recoverLoop_walked _ hstart (Nat.sub_le _ _) hloop
  refine ⟨stop, log, ?_⟩
  -- what is left of the store and the counter, whichever of the two cuts it
  have hdone : contents e.storage = (contents s).take stop ∧
      e.nextLocalSeq = e2.nextLocalSeq := by
    rcases hstop with ⟨rfl, rfl⟩ | ⟨rfl, hlt, htr⟩
    · dsimp only at hend
      split at hend
      · rename_i hlt
        exact h2.truncate (Nat.le_of_lt hlt) hend
      · rename_i hge
        cases hend
        refine ⟨?_, rfl⟩
        rw [h2.contents, List.take_of_length_le (Nat.le_of_not_lt hge)]
    · cases hend
      exact h2.truncate (Nat.le_of_lt hlt) htr
  refine ⟨hdone.1, h2.header_le, htorn, ?_, hdone.2.trans h2.nextLocalSeq⟩
  rw [hdone.1]
  exact h2.framed

/-- A store that is a sequence of frames is left as it is. -/
theorem take_of_framed {bytes : Bytes} {stop : Nat} {log all : List Mutation}
    (hheader : headerLen ≤ stop) (htorn : Torn (bytes.drop stop))
    (hlog : Framed P ((bytes.take stop).drop headerLen) log)
    (hall : Framed P (bytes.drop headerLen) all) : all = log ∧ bytes.take stop = bytes := by
  have hsplit : bytes.drop headerLen = (bytes.take stop).drop headerLen ++ bytes.drop stop := by
    have hparts := List.take_append_drop (stop - headerLen) (bytes.drop headerLen)
    rw [List.drop_drop, Nat.add_sub_cancel' hheader] at hparts
    rw [List.drop_take, hparts]
  rw [hsplit] at hall
  obtain ⟨others, hothers, rfl⟩ := hlog.split hall
  -- other frames would not be torn
  have hnil : bytes.drop stop = [] := by
    by_contra hne
    exact hothers.not_torn hne htorn
  rw [hothers.eq_nil hnil, List.append_nil]
  exact ⟨rfl, List.take_of_length_le (List.drop_eq_nil_iff.1 hnil)⟩

/-- Opening a store, whatever it holds. What is left is a sequence of frames, and all of the store
if it was one. The counter is past the sequence number of every record exactly when none of them is
the largest `u64`. The record of the next commit carries the counter. -/
theorem opened_counter_fresh_iff {actor : ActorId} {s : σ} {e : Engine σ}
    (hopen : Engine.openWith P actor s = .ok e) :
    ∃ log, Framed P ((contents e.storage).drop headerLen) log ∧
      (∀ all, Framed P ((contents s).drop headerLen) all →
        all = log ∧ contents e.storage = contents s) ∧
      ((∀ m ∈ log, m.localSeq < e.nextLocalSeq) ↔ ∀ m ∈ log, m.localSeq.toNat ≠ 2 ^ 64 - 1) ∧
      (e.nextLocalSeq = 1 ∨ ∃ m ∈ log, e.nextLocalSeq = m.localSeq + 1) ∧
      ∀ op e', Engine.commit P op e = .ok () e' →
        ∃ m, m.op = op ∧ m.localSeq = e.nextLocalSeq ∧ P.Encodable m ∧
          contents e'.storage = contents e.storage ++ P.frameOf m := by
  obtain ⟨stop, log, hc, hheader, htorn, hframed, hseq⟩ := openWith_framed hopen
  refine ⟨log, hframed, fun all hall => ?_, ?_, ?_, fun op e' hcom => ?_⟩
  · rw [hc] at hframed ⊢
    exact take_of_framed hheader htorn hframed hall
  · rw [hseq]
    exact lt_replaySeq_iff log
  · rw [hseq]
    exact replaySeq_cases log
  · have hcases := contents_commit (P := P) op e
    rw [hcom] at hcases
    rcases hcases with ⟨-, hfail⟩ | ⟨henc, happ⟩
    · exact absurd trivial hfail
    · exact ⟨stamp e op, rfl, rfl, henc, happ⟩

/-- A record that some other program wrote, with a number of its choice. -/
def foreignRecord (seq : UInt64) : Mutation :=
  { localSeq := seq, actor := ⟨"u", "d"⟩, foreshadow := true
    op := .nodeInsert (Node.new "a" "N") }

/-- A store that holds only that record. -/
def foreignStore (seq : UInt64)
    (fits : (header ++ bincode.frameOf (foreignRecord seq)).length ≤ maxLen) : MemoryStorage :=
  ⟨header ++ bincode.frameOf (foreignRecord seq), fits⟩

theorem encodable_of_isOk {m : Mutation} (h : (encodeFramed P m).isOk = true) :
    P.Encodable m := by
  cases henc : encodeFramed P m with
  | ok b => exact ⟨b, henc⟩
  | error err =>
      rw [henc] at h
      cases h

/-- The store opens, and is the frame of its record. -/
theorem foreignStore_opens {seq : UInt64} (henc : bincode.Encodable (foreignRecord seq))
    (fits : (header ++ bincode.frameOf (foreignRecord seq)).length ≤ maxLen) :
    (∃ e, Engine.openWith bincode ⟨"u", "d"⟩ (foreignStore seq fits) = .ok e) ∧
      Framed bincode ((contents (foreignStore seq fits)).drop headerLen) [foreignRecord seq] := by
  constructor
  · have hc : contents (foreignStore seq fits) = storeImage bincode [foreignRecord seq] [] := by
      simp [storeImage, contents, foreignStore]
    have hwf : WfLog ([] ++ [foreignRecord seq]) := wfLog_snoc.2 ⟨wfLog_nil, trivial⟩
    obtain ⟨e, hopen, -⟩ := openWith_spec hc (by simpa using henc) hwf torn_nil trivial ⟨"u", "d"⟩
    exact ⟨e, hopen⟩
  · show Framed bincode ((header ++ bincode.frameOf (foreignRecord seq)).drop headerLen) _
    rw [← length_header, List.drop_left, ← List.append_nil (bincode.frameOf (foreignRecord seq))]
    exact .cons henc.decodeFramed_frameOf .nil

/-- After the largest number but one the counter is the largest number. -/
theorem last_number_but_one_is_fresh :
    ∃ e, Engine.openWith bincode ⟨"u", "d"⟩
        (foreignStore 18446744073709551614 (by decide +kernel)) = .ok e ∧
      ∃ log, Framed bincode ((contents e.storage).drop headerLen) log ∧
        log = [foreignRecord 18446744073709551614] ∧ ∀ m ∈ log, m.localSeq < e.nextLocalSeq := by
  have henc : bincode.Encodable (foreignRecord 18446744073709551614) :=
    encodable_of_isOk (by decide +kernel)
  obtain ⟨⟨e, hopen⟩, hframed⟩ := foreignStore_opens henc (by decide +kernel)
  obtain ⟨log, hlog, hall, hiff, -⟩ := opened_counter_fresh_iff hopen
  obtain ⟨rfl, -⟩ := hall _ hframed
  refine ⟨e, hopen, _, hlog, rfl, hiff.2 fun m hm => ?_⟩
  rw [List.mem_singleton.1 hm]
  decide

/-- After the largest number the counter is zero. -/
theorem largest_number_wraps_counter :
    ∃ e, Engine.openWith bincode ⟨"u", "d"⟩
        (foreignStore 18446744073709551615 (by decide +kernel)) = .ok e ∧
      Framed bincode ((contents e.storage).drop headerLen) [foreignRecord 18446744073709551615] ∧
      e.nextLocalSeq = 0 ∧ ¬ (foreignRecord 18446744073709551615).localSeq < e.nextLocalSeq := by
  have henc : bincode.Encodable (foreignRecord 18446744073709551615) :=
    encodable_of_isOk (by decide +kernel)
  obtain ⟨⟨e, hopen⟩, hall⟩ := foreignStore_opens henc (by decide +kernel)
  obtain ⟨stop, log, hc, hheader, htorn, hframed, hseq⟩ := openWith_framed hopen
  rw [hc] at hframed
  obtain ⟨rfl, -⟩ := take_of_framed hheader htorn hframed hall
  have hzero : e.nextLocalSeq = 0 := hseq.trans (by decide)
  refine ⟨e, hopen, ?_, hzero, ?_⟩
  · rw [hc]
    exact hframed
  · rw [hzero]
    decide

end Morceau
