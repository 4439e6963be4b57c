import Mathlib.Data.List.Infix

/-!
# Runs in lockstep

Two machines take the same calls, and each may refuse one.  When every single call keeps a
relation between their states exactly under some condition, a run keeps it up to every
point exactly when all of its calls meet the condition.
-/

namespace FatBTree.Refinement

variable {σ τ γ : Type*} {f : σ → γ → Option σ} {g : τ → γ → Option τ}

theorem foldlM_snoc (s : σ) (done : List γ) (call : γ) :
    (done ++ [call]).foldlM f s = (done.foldlM f s).bind (f · call) := by
  rw [List.foldlM_append]
  simp only [List.foldlM_cons, List.foldlM_nil, Option.bind_eq_bind, Option.pure_def,
    Option.bind_fun_some]

/-- What is done of a run was itself a run. -/
theorem exists_of_isPrefix {t last : τ} {done calls : List γ} (hdone : done <+: calls)
    (hrun : calls.foldlM g t = some last) : ∃ passed, done.foldlM g t = some passed := by
  obtain ⟨rest, rfl⟩ := hdone
  rw [List.foldlM_append] at hrun
  obtain ⟨passed, hpassed, -⟩ := Option.bind_eq_some_iff.mp hrun
  exact ⟨passed, hpassed⟩

section Lockstep

variable {R : σ → τ → Prop} {Good : τ → γ → Prop} {s : σ} {t last : τ} {calls : List γ}

/-- The states after `done` are related. -/
def Related (f : σ → γ → Option σ) (g : τ → γ → Option τ) (R : σ → τ → Prop) (s : σ) (t : τ)
    (done : List γ) : Prop :=
  ∃ s' t', done.foldlM f s = some s' ∧ done.foldlM g t = some t' ∧ R s' t'

/-- One call more keeps the states related exactly when it is a good one. -/
theorem related_snoc_iff {done : List γ} {call : γ} {passed next : τ}
    (related : Related f g R s t done) (hpassed : done.foldlM g t = some passed)
    (hnext : g passed call = some next)
    (step : ∀ s', R s' passed → ∃ s'', f s' call = some s'' ∧ (R s'' next ↔ Good passed call)) :
    Related f g R s t (done ++ [call]) ↔ Good passed call := by
  obtain ⟨s', t', hs', ht', hR⟩ := related
  obtain rfl := Option.some.inj (ht'.symm.trans hpassed)
  obtain ⟨s'', hs'', hiff⟩ := step s' hR
  have hf : (done ++ [call]).foldlM f s = some s'' := by
    rw [foldlM_snoc, hs']
    exact hs''
  have hg : (done ++ [call]).foldlM g t = some next := by
    rw [foldlM_snoc, ht']
    exact hnext
  rw [← hiff]
  constructor
  · rintro ⟨s₁, t₁, hs₁, ht₁, hR₁⟩
    obtain rfl := Option.some.inj (hs₁.symm.trans hf)
    obtain rfl := Option.some.inj (ht₁.symm.trans hg)
    exact hR₁
  · exact fun hR' => ⟨s'', next, hf, hg, hR'⟩

/-- Calls that keep a relation exactly when they are good keep it through a run exactly when
all of them are. -/
theorem related_iff (hstart : R s t) (hrun : calls.foldlM g t = some last)
    (step : ∀ done call, done ++ [call] <+: calls → ∀ s' passed next,
      done.foldlM g t = some passed → g passed call = some next → R s' passed →
        ∃ s'', f s' call = some s'' ∧ (R s'' next ↔ Good passed call)) :
    (∀ done, done <+: calls → Related f g R s t done) ↔
      ∀ done call, done ++ [call] <+: calls → ∀ passed, done.foldlM g t = some passed →
        Good passed call := by
  have hnext : ∀ done call, done ++ [call] <+: calls → ∀ passed,
      done.foldlM g t = some passed → ∃ next, g passed call = some next := by
    intro done call hpre passed hpassed
    obtain ⟨next, hsnoc⟩ := exists_of_isPrefix hpre hrun
    rw [foldlM_snoc, hpassed] at hsnoc
    exact ⟨next, hsnoc⟩
  constructor
  · intro related done call hpre passed hpassed
    obtain ⟨next, hg⟩ := hnext done call hpre passed hpassed
    have hdone := related done ((List.prefix_append done [call]).trans hpre)
    exact (related_snoc_iff hdone hpassed hg fun s' =>
      step done call hpre s' passed next hpassed hg).mp (related _ hpre)
  · intro good done
    induction done using List.reverseRecOn with
    | nil => exact fun _ => ⟨s, t, rfl, rfl, hstart⟩
    | append_singleton done call ih =>
        intro hpre
        have hdone := ih ((List.prefix_append done [call]).trans hpre)
        obtain ⟨-, passed, -, hpassed, -⟩ := id hdone
        obtain ⟨next, hg⟩ := hnext done call hpre passed hpassed
        exact (related_snoc_iff hdone hpassed hg fun s' =>
          step done call hpre s' passed next hpassed hg).mpr (good done call hpre passed hpassed)

end Lockstep

end FatBTree.Refinement
