import Mathlib.Data.List.Induction

/-!
# Runs of a step function

A step that may be impossible, taken along a list of actions. What holds at the start and
is kept by every step of the run holds at its end; the assertion may speak of the actions
taken so far.
-/
namespace EnvVault.Runs

variable {σ α : Type} {step : σ → α → Option σ} {s t : σ} {as : List α}

theorem foldlM_snoc (as : List α) (a : α) :
    (as ++ [a]).foldlM step s = (as.foldlM step s).bind fun u => step u a := by
  simp [List.foldlM_append]

/-- The rule of runs: an assertion of every state on the way. -/
theorem invariant {I : List α → σ → Prop} (hr : as.foldlM step s = some t) (hs : I [] s)
    (hstep : ∀ pre a u u', pre ++ [a] <+: as → pre.foldlM step s = some u → I pre u →
      step u a = some u' → I (pre ++ [a]) u') : I as t := by
  induction as using List.reverseRecOn generalizing t with
  | nil =>
    obtain rfl : s = t := Option.some.inj hr
    exact hs
  | append_singleton as a ih =>
    rw [foldlM_snoc, Option.bind_eq_some_iff] at hr
    obtain ⟨u, hu, hlast⟩ := hr
    refine hstep as a u t (List.prefix_refl _) hu (ih hu fun pre b v v' hpre => ?_) hlast
    exact hstep pre b v v' (hpre.trans (List.prefix_append _ _))

theorem action_mem {pre : List α} {a : α} (h : pre ++ [a] <+: as) : a ∈ as :=
  h.subset (List.mem_append_right _ List.mem_cons_self)

/-- An assertion of the states alone, kept by the actions of the run. -/
theorem kept {I : σ → Prop} {P : α → Prop} (hr : as.foldlM step s = some t) (hs : I s)
    (ha : ∀ a ∈ as, P a) (hstep : ∀ a u u', P a → I u → step u a = some u' → I u') : I t := by
  refine invariant (I := fun _ => I) hr hs fun pre a u u' hpre _ hu => ?_
  exact hstep a u u' (ha a (action_mem hpre)) hu

end EnvVault.Runs
