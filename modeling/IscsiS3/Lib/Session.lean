import IscsiS3.Lib.Request

/-! A process that serves one call at a time and can stop between two requests; it then starts again
with a fresh memory and the world as it was left. What every call keeps holds in every state that
the process reaches. -/

namespace Session

open Request

variable {Req : Type} {Reply : Req → Type} {M W : Type}

structure State (Req : Type) (Reply : Req → Type) (M W : Type) where
  memory : M
  pending : Option (Prog Req Reply M)
  world : W

/-- A process: the calls that it serves with a given memory, and the memory that it starts with. -/
structure Process (Req : Type) (Reply : Req → Type) (M : Type) where
  calls : M → Prog Req Reply M → Prop
  fresh : M

inductive Step (P : Process Req Reply M) (env : Env Req Reply W) :
    State Req Reply M W → State Req Reply M W → Prop
  | call {m w p} : P.calls m p → Step P env ⟨m, none, w⟩ ⟨m, some p, w⟩
  | request {m w r next x w'} : env r w x w' →
      Step P env ⟨m, some (.ask r next), w⟩ ⟨m, some (next x), w'⟩
  | finish {m w m'} : Step P env ⟨m, some (.ret m'), w⟩ ⟨m', none, w⟩
  | crash {m p w} : Step P env ⟨m, p, w⟩ ⟨P.fresh, none, w⟩

def Reach (P : Process Req Reply M) (env : Env Req Reply W) (w : W) : State Req Reply M W → Prop :=
  Relation.ReflTransGen (Step P env) ⟨P.fresh, none, w⟩

section Invariant

variable {P : Process Req Reply M} {env : Env Req Reply W} {I : M → W → Prop} {J : W → Prop}

/-- `I` relates the memory and the world when the process is idle; `J` is what is left after it
stops. -/
structure Keeps (P : Process Req Reply M) (env : Env Req Reply W) (I : M → W → Prop)
    (J : W → Prop) : Prop where
  call : ∀ {m w p}, I m w → P.calls m p → p.Safe env J w I
  left : ∀ {m w}, I m w → J w
  start : ∀ {w}, J w → I P.fresh w

/-- What holds of a state: an idle process satisfies `I`, and a call is safe from where it is. -/
def Holds (env : Env Req Reply W) (I : M → W → Prop) (J : W → Prop) (st : State Req Reply M W) :
    Prop :=
  match st.pending with
  | none => I st.memory st.world
  | some p => p.Safe env J st.world I

variable {st : State Req Reply M W}

variable (h : Keeps P env I J) {w : W}

include h

theorem Keeps.left_of_holds (holds : Holds env I J st) : J st.world := by
  obtain ⟨m, _ | p, w⟩ := st
  · exact h.left holds
  · exact Prog.Safe.inv holds

theorem Keeps.step {st st' : State Req Reply M W} (step : Step P env st st')
    (holds : Holds env I J st) : Holds env I J st' := by
  cases step with
  | call hp => exact h.call holds hp
  | request hx => exact holds.2 _ _ hx
  | finish => exact holds.2
  | crash =>
    have left := h.left_of_holds holds
    exact h.start left

theorem Keeps.run {m : M} (idle : I m w)
    (run : Relation.ReflTransGen (Step P env) ⟨m, none, w⟩ st) : Holds env I J st := by
  induction run with
  | refl => exact idle
  | tail _ step ih => exact h.step step ih

theorem Keeps.reach (start : J w) (run : Reach P env w st) :
    Holds env I J st :=
  h.run (h.start start) run

end Invariant

section Calls

variable {P : Process Req Reply M} {env : Env Req Reply W} {w₀ w w' : W} {m m' : M}
variable {p : Prog Req Reply M}

theorem run_call (hp : P.calls m p) (runs : p.Runs env w m' w') :
    Relation.ReflTransGen (Step P env) ⟨m, none, w⟩ ⟨m', none, w'⟩ := by
  refine .head (.call hp) ?_
  clear hp
  induction p generalizing w with
  | ret a =>
    obtain ⟨rfl, rfl⟩ := runs
    exact .single .finish
  | ask r next ih =>
    obtain ⟨x, w₁, hx, rest⟩ := runs
    exact .head (.request hx) (ih x rest)

theorem run_stop (hp : P.calls m p) {answer : (r : Req) → W → Reply r × W} (ok : Req → W → Bool)
    (allowed : ∀ r w, ok r w = true → env r w (answer r w).1 (answer r w).2)
    (h : p.checked answer ok w = true) (n : Nat) :
    Relation.ReflTransGen (Step P env) ⟨m, none, w⟩ ⟨P.fresh, none, p.after answer n w⟩ := by
  refine .head (.call hp) ?_
  clear hp
  induction n generalizing p w with
  | zero => exact .single .crash
  | succ n ih =>
    cases p with
    | ret a => exact .single .crash
    | ask r next =>
      obtain ⟨hok, rest⟩ := Bool.and_eq_true_iff.mp h
      exact .head (.request (allowed r w hok)) (ih rest)

theorem Reach.call (run : Reach P env w₀ ⟨m, none, w⟩) (hp : P.calls m p)
    (runs : p.Runs env w m' w') : Reach P env w₀ ⟨m', none, w'⟩ :=
  run.trans (run_call hp runs)

end Calls

end Session
