import Mathlib.Logic.Function.Basic
import IscsiS3.Lib.Request

/-! Request programs side by side against one service. A step is one request of one program. The
rule for proofs is rely-guarantee; a program among others is an ordinary one against a service whose
state is a pair, the state that its last request found and the state that it left, so that the rules
of `Safe` apply to it as they are. -/

namespace Request

structure Parallel (Req : Type) (Reply : Req → Type) (ι α W : Type) where
  world : W
  progs : ι → Prog Req Reply α

namespace Parallel

variable {Req : Type} {Reply : Req → Type} {ι α W : Type} [DecidableEq ι] {t : ι}

inductive Step (env : ι → Env Req Reply W) :
    Parallel Req Reply ι α W → Parallel Req Reply ι α W → Prop
  | ask {st : Parallel Req Reply ι α W} {t : ι} {r : Req} {next : Reply r → Prog Req Reply α}
      {x : Reply r} {w : W} : st.progs t = .ask r next → env t r st.world x w →
        Step env st ⟨w, Function.update st.progs t (next x)⟩

section Schedule

variable (answer : ι → (r : Req) → W → Reply r × W) (test : ι → Req → W → Bool)

def turn (st : Parallel Req Reply ι α W) (t : ι) : Parallel Req Reply ι α W :=
  match st.progs t with
  | .ret _ => st
  | .ask r next => ⟨(answer t r st.world).2,
      Function.update st.progs t (next (answer t r st.world).1)⟩

def exec (st : Parallel Req Reply ι α W) (schedule : List ι) : Parallel Req Reply ι α W :=
  schedule.foldl (turn answer) st

/-- Every request of the schedule passes the test in the state that it finds. -/
def passes : Parallel Req Reply ι α W → List ι → Bool
  | _, [] => true
  | st, t :: rest =>
    (match st.progs t with
      | .ret _ => true
      | .ask r _ => test t r st.world) && passes (turn answer st t) rest

variable {answer test} {env : ι → Env Req Reply W} {st : Parallel Req Reply ι α W}

theorem run_turn
    (h : ∀ r next, st.progs t = .ask r next →
      env t r st.world (answer t r st.world).1 (answer t r st.world).2) :
    Relation.ReflTransGen (Step env) st (turn answer st t) := by
  unfold turn
  split
  · exact .refl
  · rename_i r next hp
    exact .single (.ask hp (h r next hp))

theorem run_exec (allowed : ∀ t r w, env t r w (answer t r w).1 (answer t r w).2)
    (schedule : List ι) (st : Parallel Req Reply ι α W) :
    Relation.ReflTransGen (Step env) st (exec answer st schedule) := by
  induction schedule generalizing st with
  | nil => exact .refl
  | cons t rest ih => exact (run_turn fun r _ _ => allowed t r st.world).trans (ih _)

theorem run_exec_of_passes
    (allowed : ∀ t r w, test t r w = true → env t r w (answer t r w).1 (answer t r w).2)
    {schedule : List ι} (h : passes answer test st schedule = true) :
    Relation.ReflTransGen (Step env) st (exec answer st schedule) := by
  induction schedule generalizing st with
  | nil => exact .refl
  | cons t rest ih =>
    obtain ⟨hfirst, hrest⟩ := Bool.and_eq_true_iff.mp h
    refine (run_turn fun r next hp => allowed t r st.world ?_).trans (ih hrest)
    rwa [hp] at hfirst

end Schedule

/-- A service that others use too: its state changes before a request as `rely` allows. -/
def Interfered (env : Env Req Reply W) (rely : W → W → Prop) : Env Req Reply (W × W) :=
  fun r v x v' => rely v.2 v'.1 ∧ env r v'.1 x v'.2

/-- What each program relies on and what it guarantees, such that they fit together. -/
structure Outline (ι W : Type) where
  rely : ι → W → W → Prop
  guar : ι → W → W → Prop
  refl : ∀ t w, rely t w w
  trans : ∀ {t w w' w''}, rely t w w' → rely t w' w'' → rely t w w''
  fits : ∀ {t u w w'}, u ≠ t → guar t w w' → rely u w w'

namespace Outline

variable {env : ι → Env Req Reply W} {Q : ι → α → W → Prop} {st st' : Parallel Req Reply ι α W}

/-- A program keeps its guarantee among the others, and its result satisfies `Q`. -/
def Meets (o : Outline ι W) (env : ι → Env Req Reply W) (t : ι) (p : Prog Req Reply α) (v : W × W)
    (Q : α → W → Prop) : Prop :=
  p.Safe (Interfered (env t) (o.rely t)) (fun v => o.guar t v.1 v.2) v fun a v => Q a v.2

/-- Every program meets the outline from where it is. -/
def Holds (o : Outline ι W) (env : ι → Env Req Reply W) (Q : ι → α → W → Prop)
    (st : Parallel Req Reply ι α W) : Prop :=
  ∀ t, ∃ v, o.rely t v.2 st.world ∧ o.Meets env t (st.progs t) v (Q t)

variable {o : Outline ι W}

theorem Holds.step (h : o.Holds env Q st) (step : Step env st st') :
    o.Holds env Q st' := by
  cases step with
  | @ask t r next x w hp hx =>
    obtain ⟨v, hv, meets⟩ := h t
    rw [hp] at meets
    have rest : o.Meets env t (next x) (st.world, w) (Q t) := meets.2 x (st.world, w) ⟨hv, hx⟩
    intro u
    by_cases hu : u = t
    · subst hu
      refine ⟨(st.world, w), o.refl u w, ?_⟩
      dsimp only
      rw [Function.update_self]
      exact rest
    · obtain ⟨v, hv, meets⟩ := h u
      refine ⟨v, o.trans hv (o.fits hu rest.inv), ?_⟩
      dsimp only
      rw [Function.update_of_ne hu]
      exact meets

theorem Holds.run (h : o.Holds env Q st) (run : Relation.ReflTransGen (Step env) st st') :
    o.Holds env Q st' := by
  induction run with
  | refl => exact h
  | tail _ step ih => exact ih.step step

omit [DecidableEq ι] in
theorem Holds.result (h : o.Holds env Q st) {a : α} (hret : st.progs t = .ret a) :
    ∃ w, o.rely t w st.world ∧ Q t a w := by
  obtain ⟨v, hv, meets⟩ := h t
  rw [hret] at meets
  exact ⟨v.2, hv, meets.2⟩

end Outline

end Parallel

end Request
