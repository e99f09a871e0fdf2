import Mathlib.Logic.Function.Basic

/-! Threads over a shared state. A step of one thread changes the shared state and its own control
state in one go; a run is any interleaving of steps that all meet a condition. The rule for proofs
is rely-guarantee. -/

namespace Threads

/-- The program of the threads: what thread `t` does with the choice `c`, if it can step. -/
structure Machine (σ τ ι χ : Type) where
  step : ι → χ → σ → τ → Option (σ × τ)

structure State (σ τ ι : Type) where
  shared : σ
  threads : ι → τ

variable {σ τ ι χ : Type} [DecidableEq ι]

namespace Machine

variable (m : Machine σ τ ι χ)

def next (s : State σ τ ι) (a : ι × χ) : Option (State σ τ ι) :=
  match m.step a.1 a.2 s.shared (s.threads a.1) with
  | none => none
  | some (shared, thread) => some ⟨shared, Function.update s.threads a.1 thread⟩

/-- A schedule, as long as every step of it can be taken and passes the test. -/
def exec (test : State σ τ ι → ι × χ → Bool) : State σ τ ι → List (ι × χ) → Option (State σ τ ι)
  | s, [] => some s
  | s, a :: rest =>
    if test s a then
      match m.next s a with
      | none => none
      | some s' => exec test s' rest
    else none

/-- The states reached from `s₀` by steps that all meet `C`. -/
inductive Reach (C : State σ τ ι → ι × χ → Prop) (s₀ : State σ τ ι) : State σ τ ι → Prop
  | start : Reach C s₀ s₀
  | step {s s' : State σ τ ι} {a : ι × χ} :
      Reach C s₀ s → C s a → m.next s a = some s' → Reach C s₀ s'

variable {m} {C : State σ τ ι → ι × χ → Prop} {s₀ s s' : State σ τ ι} {a : ι × χ}

theorem next_eq_some (h : m.next s a = some s') :
    ∃ shared thread, m.step a.1 a.2 s.shared (s.threads a.1) = some (shared, thread) ∧
      s' = ⟨shared, Function.update s.threads a.1 thread⟩ := by
  unfold next at h
  cases hstep : m.step a.1 a.2 s.shared (s.threads a.1) with
  | none => simp [hstep] at h
  | some r => exact ⟨r.1, r.2, rfl, by simpa [hstep] using h.symm⟩

theorem Reach.invariant {I : State σ τ ι → Prop} (init : I s₀)
    (keep : ∀ s s' a, I s → C s a → m.next s a = some s' → I s') (h : m.Reach C s₀ s) : I s := by
  induction h with
  | start => exact init
  | step _ hC hnext ih => exact keep _ _ _ ih hC hnext

theorem Reach.trans (h : m.Reach C s₀ s) (h' : m.Reach C s s') : m.Reach C s₀ s' := by
  induction h' with
  | start => exact h
  | step _ hC hnext ih => exact .step ih hC hnext

theorem Reach.mono {C' : State σ τ ι → ι × χ → Prop} (weaker : ∀ s a, C s a → C' s a)
    (h : m.Reach C s₀ s) : m.Reach C' s₀ s := by
  induction h with
  | start => exact .start
  | step _ hC hnext ih => exact .step ih (weaker _ _ hC) hnext

/-- A run of a machine whose steps are steps of `m'`, or none, as seen through `f` and `g`, is a run
of `m'`. -/
theorem Reach.simulates {σ' τ' : Type} {m' : Machine σ' τ' ι χ} (f : σ → σ') (g : τ → τ')
    (step : ∀ {t : ι} {c : χ} {s s' : σ} {v v' : τ}, m.step t c s v = some (s', v') →
      (f s' = f s ∧ g v' = g v) ∨ m'.step t c (f s) (g v) = some (f s', g v'))
    (h : m.Reach C s₀ s) :
    m'.Reach (fun _ _ => True) ⟨f s₀.shared, g ∘ s₀.threads⟩ ⟨f s.shared, g ∘ s.threads⟩ := by
  induction h with
  | start => exact .start
  | @step s s' a _ _ hnext ih =>
    obtain ⟨shared, thread, hstep, rfl⟩ := next_eq_some hnext
    rcases step hstep with ⟨hf, hg⟩ | hstep'
    · have hthreads : g ∘ Function.update s.threads a.1 thread = g ∘ s.threads := by
        rw [Function.comp_update, hg]
        exact Function.update_eq_self a.1 (g ∘ s.threads)
      simp only
      rwa [hf, hthreads]
    · refine .step (a := a) ih trivial ?_
      simp only [next, Function.comp_apply, hstep', Function.comp_update]

variable {test : State σ τ ι → ι × χ → Bool} {schedule : List (ι × χ)}

theorem reach_exec (meets : ∀ s a, test s a = true → C s a) (h : m.exec test s₀ schedule = some s) :
    m.Reach C s₀ s := by
  induction schedule generalizing s₀ with
  | nil =>
    cases h
    exact .start
  | cons a rest ih =>
    simp only [exec] at h
    split at h
    · rename_i passes
      split at h
      · cases h
      · rename_i s₁ hnext
        exact Reach.trans (.step .start (meets _ _ passes) hnext) (ih h)
    · cases h

theorem threads_exec {t : ι} (h : m.exec test s₀ schedule = some s)
    (hnot : ∀ a ∈ schedule, a.1 ≠ t) :
    s.threads t = s₀.threads t := by
  induction schedule generalizing s₀ with
  | nil =>
    cases h
    rfl
  | cons a rest ih =>
    simp only [exec] at h
    split at h
    · split at h
      · cases h
      · rename_i s₁ hnext
        obtain ⟨shared, thread, -, rfl⟩ := next_eq_some hnext
        rw [ih h fun b hb => hnot b (List.mem_cons_of_mem _ hb)]
        exact Function.update_of_ne (hnot a List.mem_cons_self).symm _ _
    · cases h

/-- As `reach_exec`, for a schedule of the threads in `ts`: the others stay where they are, so that
the test need not look at them. -/
theorem reach_exec_among (ts : List ι) (among : ∀ a ∈ schedule, a.1 ∈ ts)
    (meets : ∀ s a, (∀ t, t ∉ ts → s.threads t = s₀.threads t) → test s a = true → C s a)
    (h : m.exec test s₀ schedule = some s) : m.Reach C s₀ s := by
  have run : ∀ s₁, (∀ t, t ∉ ts → s₁.threads t = s₀.threads t) →
      m.exec test s₁ schedule = some s → m.Reach C s₁ s := by
    clear h
    induction schedule with
    | nil =>
      intro s₁ _ h
      cases h
      exact .start
    | cons a rest ih =>
      intro s₁ hothers h
      simp only [exec] at h
      split at h
      · rename_i passes
        split at h
        · cases h
        · rename_i s₂ hnext
          refine Reach.trans (.step .start (meets _ _ hothers passes) hnext)
            (ih (fun b hb => among b (List.mem_cons_of_mem _ hb)) s₂ (fun t ht => ?_) h)
          obtain ⟨shared, thread, -, rfl⟩ := next_eq_some hnext
          have hne : t ≠ a.1 := fun heq => ht (heq ▸ among a List.mem_cons_self)
          simpa [Function.update_of_ne hne] using hothers t ht
      · cases h
  exact run s₀ (fun _ _ => rfl) h

/-- The rely-guarantee rule: `G` is about the shared state, `L` about each thread, and `R t` is what
a step of thread `t` may do to the shared state as far as the other threads can tell. -/
structure Outline (m : Machine σ τ ι χ) (C : State σ τ ι → ι × χ → Prop) where
  G : σ → Prop
  L : σ → ι → τ → Prop
  R : ι → State σ τ ι → σ → Prop
  own : ∀ {s : State σ τ ι} {t : ι} {c : χ} {shared : σ} {thread : τ},
    G s.shared → (∀ u, L s.shared u (s.threads u)) → C s (t, c) →
      m.step t c s.shared (s.threads t) = some (shared, thread) →
        G shared ∧ L shared t thread ∧ R t s shared
  stable : ∀ {s : State σ τ ι} {t u : ι} {shared : σ},
    u ≠ t → G s.shared → R t s shared → L s.shared u (s.threads u) → L shared u (s.threads u)

def Outline.Holds (o : Outline m C) (s : State σ τ ι) : Prop :=
  o.G s.shared ∧ ∀ t, o.L s.shared t (s.threads t)

theorem Outline.next (o : Outline m C) (h : o.Holds s) (hC : C s a) (hnext : m.next s a = some s') :
    o.Holds s' ∧ o.R a.1 s s'.shared := by
  obtain ⟨shared, thread, hstep, rfl⟩ := next_eq_some hnext
  obtain ⟨hG, hL, hR⟩ := o.own h.1 h.2 hC hstep
  refine ⟨⟨hG, fun u => ?_⟩, hR⟩
  by_cases hu : u = a.1
  · subst hu
    simpa using hL
  · simpa [Function.update_of_ne hu] using o.stable hu h.1 hR (h.2 u)

theorem Outline.reach (o : Outline m C) (init : o.Holds s₀) (h : m.Reach C s₀ s) : o.Holds s :=
  Reach.invariant init (fun _ _ _ hs hC hnext => (o.next hs hC hnext).1) h

end Machine

end Threads
