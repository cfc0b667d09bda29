import Morceau.Lib.EState

/-!
# Two computations side by side

Two computations over different states are coupled when, from related states, both succeed with
related values or both fail, and end in related states. Runs that end in an error of a kind that is
set aside, such as a failure of a device, are left out. Coupled parts make coupled sequences
(`Coupled.bind`), so a whole program is coupled to another piece by piece.
-/

set_option autoImplicit false

namespace Morceau.Lib

universe u

variable {ε ε' σ τ α β : Type u}

/-- The run did not end in an error of this kind. -/
def Spared (bad : ε → Prop) : EStateM.Result ε σ α → Prop
  | .ok _ _ => True
  | .error err _ => ¬bad err

/-- Both runs succeeded with related values, or both failed; the states are related. -/
inductive CoupledResult (S : σ → τ → Prop) (R : α → β → Prop) :
    EStateM.Result ε σ α → EStateM.Result ε' τ β → Prop where
  | ok {a : α} {b : β} {s : σ} {t : τ} : R a b → S s t → CoupledResult S R (.ok a s) (.ok b t)
  | error {err : ε} {err' : ε'} {s : σ} {t : τ} : S s t →
      CoupledResult S R (.error err s) (.error err' t)

/-- From related states the runs are coupled, unless one ends in an error that is set aside. -/
def Coupled (S : σ → τ → Prop) (bad : ε → Prop) (bad' : ε' → Prop) (R : α → β → Prop)
    (x : EStateM ε σ α) (y : EStateM ε' τ β) : Prop :=
  ∀ s t, S s t → Spared bad (x s) → Spared bad' (y t) → CoupledResult S R (x s) (y t)

variable {S : σ → τ → Prop} {bad : ε → Prop} {bad' : ε' → Prop} {R : α → β → Prop}

/-- Coupled runs end in related states. -/
theorem CoupledResult.final {r : EStateM.Result ε σ α} {r' : EStateM.Result ε' τ β}
    (h : CoupledResult S R r r') : S (finalState r) (finalState r') := by
  cases h with
  | ok _ hs => exact hs
  | error hs => exact hs

theorem CoupledResult.mono {R' : α → β → Prop} {r : EStateM.Result ε σ α}
    {r' : EStateM.Result ε' τ β} (h : CoupledResult S R r r') (hR : ∀ a b, R a b → R' a b) :
    CoupledResult S R' r r' := by
  cases h with
  | ok hab hs => exact .ok (hR _ _ hab) hs
  | error hs => exact .error hs

/-- Going on from coupled runs. -/
theorem CoupledResult.bind {α' β' : Type u} {R' : α' → β' → Prop} {x : EStateM ε σ α}
    {y : EStateM ε' τ β} {f : α → EStateM ε σ α'} {g : β → EStateM ε' τ β'} {s : σ} {t : τ}
    (h : CoupledResult S R (x s) (y t))
    (hf : ∀ a b s' t', x s = .ok a s' → y t = .ok b t' → R a b → S s' t' →
      CoupledResult S R' (f a s') (g b t')) :
    CoupledResult S R' ((x >>= f) s) ((y >>= g) t) := by
  cases hxs : x s with
  | ok a s' =>
      rw [hxs] at h
      cases hyt : y t with
      | error err' t' =>
          rw [hyt] at h
          cases h
      | ok b t' =>
          rw [hyt] at h
          rw [bind_of_ok hxs, bind_of_ok hyt]
          cases h with
          | ok hab hs' => exact hf a b s' t' hxs hyt hab hs'
  | error err s' =>
      rw [hxs] at h
      cases hyt : y t with
      | ok b t' =>
          rw [hyt] at h
          cases h
      | error err' t' =>
          rw [hyt] at h
          rw [bind_of_error hxs, bind_of_error hyt]
          cases h with
          | error hs' => exact .error hs'

theorem Spared.of_bind {x : EStateM ε σ α} {f : α → EStateM ε σ β} {s : σ}
    (h : Spared bad ((x >>= f) s)) : Spared bad (x s) := by
  cases hx : x s with
  | ok a s' => trivial
  | error err s' =>
      rw [bind_of_error hx] at h
      exact h

namespace Coupled

theorem mono {R' : α → β → Prop} {x : EStateM ε σ α} {y : EStateM ε' τ β}
    (h : Coupled S bad bad' R x y) (hR : ∀ a b, R a b → R' a b) : Coupled S bad bad' R' x y :=
  fun s t hs hok hok' => (h s t hs hok hok').mono hR

theorem pure {a : α} {b : β} (h : R a b) : Coupled S bad bad' R (pure a) (pure b) :=
  fun _ _ hs _ _ => .ok h hs

theorem throw (err : ε) (err' : ε') :
    Coupled S bad bad' R (throw err : EStateM ε σ α) (throw err') :=
  fun _ _ hs _ _ => .error hs

/-- Two looks at the states see related states. -/
theorem get : Coupled S bad bad' S (get : EStateM ε σ σ) (get : EStateM ε' τ τ) :=
  fun _ _ hs _ _ => .ok hs hs

theorem bind {α' β' : Type u} {R' : α' → β' → Prop} {x : EStateM ε σ α} {y : EStateM ε' τ β}
    {f : α → EStateM ε σ α'} {g : β → EStateM ε' τ β'} (hx : Coupled S bad bad' R x y)
    (hf : ∀ a b, R a b → Coupled S bad bad' R' (f a) (g b)) :
    Coupled S bad bad' R' (x >>= f) (y >>= g) := by
  intro s t hs hok hok'
  refine (hx s t hs hok.of_bind hok'.of_bind).bind fun a b s' t' hxs hyt hab hs' => ?_
  rw [bind_of_ok hxs] at hok
  rw [bind_of_ok hyt] at hok'
  exact hf a b hab s' t' hs' hok hok'

/-- Renaming errors so that the same ones are set aside. -/
theorem adaptExcept {δ δ' : Type u} {f : ε → δ} {f' : ε' → δ'} {worse : δ → Prop}
    {worse' : δ' → Prop} {x : EStateM ε σ α} {y : EStateM ε' τ β}
    (hx : Coupled S bad bad' R x y) (hf : ∀ err, bad err → worse (f err))
    (hf' : ∀ err, bad' err → worse' (f' err)) :
    Coupled S worse worse' R (x.adaptExcept f) (y.adaptExcept f') := by
  intro s t hs hok hok'
  unfold EStateM.adaptExcept at hok hok' ⊢
  have hrun := hx s t hs
  cases hxs : x s with
  | ok a s' =>
      rw [hxs] at hrun
      cases hyt : y t with
      | ok b t' =>
          rw [hyt] at hrun
          cases hrun trivial trivial with
          | ok hab hs' => exact .ok hab hs'
      | error err' t' =>
          rw [hyt] at hrun hok'
          cases hrun trivial fun hbad => hok' (hf' err' hbad)
  | error err s' =>
      rw [hxs] at hrun hok
      have hspared : ¬bad err := fun hbad => hok (hf err hbad)
      cases hyt : y t with
      | ok b t' =>
          rw [hyt] at hrun
          cases hrun hspared trivial
      | error err' t' =>
          rw [hyt] at hrun hok'
          cases hrun hspared fun hbad => hok' (hf' err' hbad) with
          | error hs' => exact .error hs'

end Coupled

end Morceau.Lib
