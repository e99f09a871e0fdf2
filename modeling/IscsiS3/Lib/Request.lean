import Mathlib.Logic.Relation

/-! Programs that talk to a service by requests and replies. `run` answers every request by a
function of the service's state, and an `Env` says which replies and next states a request may have,
so that it can fail. `Safe` is the rule of pre- and postconditions for such programs, with an
invariant that holds at every request boundary. -/

namespace Request

/-- A program with result in `α` that asks requests of `Req`, a request `r` having a reply in
`Reply r`. -/
inductive Prog (Req : Type) (Reply : Req → Type) (α : Type) : Type where
  | ret (a : α)
  | ask (r : Req) (next : Reply r → Prog Req Reply α)

/-- The replies and next states that the service may give to a request in a state. -/
abbrev Env (Req : Type) (Reply : Req → Type) (W : Type) : Type :=
  (r : Req) → W → Reply r → W → Prop

namespace Prog

variable {Req : Type} {Reply : Req → Type} {α β γ W : Type}

def bind : Prog Req Reply α → (α → Prog Req Reply β) → Prog Req Reply β
  | ret a, f => f a
  | ask r next, f => ask r fun x => (next x).bind f

instance : Monad (Prog Req Reply) where
  pure := ret
  bind := bind

@[simp] theorem ret_bind (a : α) (f : α → Prog Req Reply β) : (ret a).bind f = f a := rfl

@[simp] theorem ask_bind (r : Req) (next : Reply r → Prog Req Reply α)
    (f : α → Prog Req Reply β) : (ask r next).bind f = ask r fun x => (next x).bind f := rfl

theorem bind_assoc (p : Prog Req Reply α) (f : α → Prog Req Reply β) (g : β → Prog Req Reply γ) :
    (p.bind f).bind g = p.bind fun a => (f a).bind g := by
  induction p with
  | ret a => rfl
  | ask r next ih =>
    simp only [ask_bind]
    congr 1
    funext x
    exact ih x

/-- A program as one that asks the requests of a larger service. -/
def through {Req' : Type} {Reply' : Req' → Type} (inj : Req → Req')
    (back : (r : Req) → Reply' (inj r) → Reply r) : Prog Req Reply α → Prog Req' Reply' α
  | ret a => ret a
  | ask r next => ask (inj r) fun x => through inj back (next (back r x))

def request (r : Req) : Prog Req Reply (Reply r) := ask r ret

def run (answer : (r : Req) → W → Reply r × W) : Prog Req Reply α → W → α × W
  | ret a, w => (a, w)
  | ask r next, w => run answer (next (answer r w).1) (answer r w).2

section Run

variable (answer : (r : Req) → W → Reply r × W)

@[simp] theorem run_ret (a : α) (w : W) : (ret a : Prog Req Reply α).run answer w = (a, w) := rfl

@[simp] theorem run_ask (r : Req) (next : Reply r → Prog Req Reply α) (w : W) :
    (ask r next).run answer w = (next (answer r w).1).run answer (answer r w).2 := rfl

theorem run_bind (p : Prog Req Reply α) (f : α → Prog Req Reply β) (w : W) :
    (p.bind f).run answer w = (f (p.run answer w).1).run answer (p.run answer w).2 := by
  induction p generalizing w with
  | ret a => rfl
  | ask r next ih => exact ih _ _

end Run

def after (answer : (r : Req) → W → Reply r × W) : Nat → Prog Req Reply α → W → W
  | 0, _, w => w
  | _ + 1, ret _, w => w
  | n + 1, ask r next, w => after answer n (next (answer r w).1) (answer r w).2

/-- Every request of the run satisfies `ok` in the state that it finds. -/
def checked (answer : (r : Req) → W → Reply r × W) (ok : Req → W → Bool) :
    Prog Req Reply α → W → Bool
  | ret _, _ => true
  | ask r next, w => ok r w && checked answer ok (next (answer r w).1) (answer r w).2

/-- The program can end with `b` in `w'`, with replies as `env` allows them. -/
def Runs (env : Env Req Reply W) : Prog Req Reply α → W → α → W → Prop
  | ret a, w, b, w' => b = a ∧ w' = w
  | ask r next, w, b, w' => ∃ x w₁, env r w x w₁ ∧ Runs env (next x) w₁ b w'

/-- Every request that the program can ask satisfies `ok`, and every result `Q`, as long as the
replies fit their requests. -/
def Confined (fits : (r : Req) → Reply r → Prop) (ok : Req → Prop) (Q : α → Prop) :
    Prog Req Reply α → Prop
  | ret a => Q a
  | ask r next => ok r ∧ ∀ x, fits r x → Confined fits ok Q (next x)

/-- The program can come to ask the request `q`, with replies as `env` allows them. -/
def CanAsk (env : Env Req Reply W) : Prog Req Reply α → W → Req → Prop
  | ret _, _, _ => False
  | ask r next, w, q => q = r ∨ ∃ x w', env r w x w' ∧ CanAsk env (next x) w' q

/-- From `w`, with replies as `env` allows them, every state at a request boundary of the program
satisfies `I`, and its result and last state satisfy `Q`. -/
def Safe (env : Env Req Reply W) (I : W → Prop) : Prog Req Reply α → W → (α → W → Prop) → Prop
  | ret a, w, Q => I w ∧ Q a w
  | ask r next, w, Q => I w ∧ ∀ x w', env r w x w' → Safe env I (next x) w' Q

variable {p : Prog Req Reply α} {answer : (r : Req) → W → Reply r × W} {f : α → Prog Req Reply β}

section Safe

variable {env : Env Req Reply W} {I : W → Prop} {w : W} {Q : α → W → Prop} {J : W → Prop}

theorem Safe.inv (h : p.Safe env I w Q) : I w := by
  cases p with
  | ret _ | ask _ _ => exact h.1

theorem Safe.mono {Q Q' : α → W → Prop} (h : p.Safe env I w Q)
    (imp : ∀ a w', I w' → Q a w' → Q' a w') : p.Safe env I w Q' := by
  induction p generalizing w with
  | ret a => exact ⟨h.1, imp a w h.1 h.2⟩
  | ask r next ih => exact ⟨h.1, fun x w' step => ih x (h.2 x w' step)⟩

theorem Safe.and {Q Q' : α → W → Prop} (h : p.Safe env I w Q) (h' : p.Safe env J w Q') :
    p.Safe env (fun w => I w ∧ J w) w fun a w' => Q a w' ∧ Q' a w' := by
  induction p generalizing w with
  | ret a => exact ⟨⟨h.1, h'.1⟩, h.2, h'.2⟩
  | ask r next ih =>
    exact ⟨⟨h.1, h'.1⟩, fun x w' step => ih x (h.2 x w' step) (h'.2 x w' step)⟩

/-- A program followed by another: the first one's postcondition is what makes the second safe. -/
theorem Safe.bind {Q : β → W → Prop} (h : p.Safe env I w fun a w' => (f a).Safe env I w' Q) :
    (p.bind f).Safe env I w Q := by
  induction p generalizing w with
  | ret a => exact h.2
  | ask r next ih => exact ⟨h.1, fun x w' step => ih x (h.2 x w' step)⟩

theorem Safe.runs (h : p.Safe env I w Q) {a : α} {w' : W} (run : p.Runs env w a w') : Q a w' := by
  induction p generalizing w with
  | ret b =>
    obtain ⟨rfl, rfl⟩ := run
    exact h.2
  | ask r next ih =>
    obtain ⟨x, w₁, step, rest⟩ := run
    exact ih x (h.2 x w₁ step) rest

theorem Safe.run (h : p.Safe env I w Q) (allowed : ∀ r w, env r w (answer r w).1 (answer r w).2) :
    Q (p.run answer w).1 (p.run answer w).2 := by
  induction p generalizing w with
  | ret a => exact h.2
  | ask r next ih => exact ih _ (h.2 _ _ (allowed r w))

theorem runs_of_checked (ok : Req → W → Bool)
    (allowed : ∀ r w, ok r w = true → env r w (answer r w).1 (answer r w).2) (p : Prog Req Reply α)
    (w : W) (h : p.checked answer ok w = true) :
    p.Runs env w (p.run answer w).1 (p.run answer w).2 := by
  induction p generalizing w with
  | ret a => exact ⟨rfl, rfl⟩
  | ask r next ih =>
    obtain ⟨hok, rest⟩ := Bool.and_eq_true_iff.mp h
    exact ⟨_, _, allowed r w hok, ih _ _ rest⟩

theorem runs_run (allowed : ∀ r w, env r w (answer r w).1 (answer r w).2) (p : Prog Req Reply α)
    (w : W) :
    p.Runs env w (p.run answer w).1 (p.run answer w).2 := by
  induction p generalizing w with
  | ret a => exact ⟨rfl, rfl⟩
  | ask r next ih => exact ⟨_, _, allowed r w, ih _ _⟩

theorem Safe.weaken {env' : Env Req Reply W} (h : p.Safe env I w Q)
    (less : ∀ r w x w', env' r w x w' → env r w x w') (imp : ∀ w', I w' → J w') :
    p.Safe env' J w Q := by
  induction p generalizing w with
  | ret a => exact ⟨imp w h.1, h.2⟩
  | ask r next ih => exact ⟨imp w h.1, fun x w' step => ih x (h.2 x w' (less _ _ _ _ step))⟩

theorem Safe.through {Req' : Type} {Reply' : Req' → Type} {inj : Req → Req'}
    {back : (r : Req) → Reply' (inj r) → Reply r} {env' : Env Req' Reply' W} (h : p.Safe env I w Q)
    (less : ∀ r w x w', env' (inj r) w x w' → env r w (back r x) w') :
    (p.through inj back).Safe env' I w Q := by
  induction p generalizing w with
  | ret a => exact h
  | ask r next ih => exact ⟨h.1, fun x w' step => ih _ (h.2 _ w' (less r w x w' step))⟩

theorem Safe.first {Q : β → W → Prop} (h : (p.bind f).Safe env I w Q) :
    p.Safe env I w fun _ _ => True := by
  induction p generalizing w with
  | ret a => exact ⟨Safe.inv h, trivial⟩
  | ask r next ih => exact ⟨h.1, fun x w' step => ih x (h.2 x w' step)⟩

theorem Safe.bind_runs {Q : β → W → Prop} (h : (p.bind f).Safe env I w Q) {a : α} {w' : W}
    (run : p.Runs env w a w') :
    (f a).Safe env I w' Q := by
  induction p generalizing w with
  | ret b =>
    obtain ⟨rfl, rfl⟩ := run
    exact h
  | ask r next ih =>
    obtain ⟨x, w₁, step, rest⟩ := run
    exact ih x (h.2 x w₁ step) rest

end Safe

section Confined

variable {fits : (r : Req) → Reply r → Prop} {ok : Req → Prop} {env : Env Req Reply W}

theorem Confined.mono {Q Q' : α → Prop} (h : p.Confined fits ok Q) (imp : ∀ a, Q a → Q' a) :
    p.Confined fits ok Q' := by
  induction p with
  | ret a => exact imp a h
  | ask r next ih => exact ⟨h.1, fun x hx => ih x (h.2 x hx)⟩

theorem Confined.bind {Q : β → Prop} (h : p.Confined fits ok fun a => (f a).Confined fits ok Q) :
    (p.bind f).Confined fits ok Q := by
  induction p with
  | ret a => exact h
  | ask r next ih => exact ⟨h.1, fun x hx => ih x (h.2 x hx)⟩

variable {Q : α → Prop}

variable (h : p.Confined fits ok Q)

include h

theorem Confined.canAsk (fit : ∀ r w x w', env r w x w' → fits r x) {w : W} {q : Req}
    (asked : p.CanAsk env w q) :
    ok q := by
  induction p generalizing w with
  | ret a => exact asked.elim
  | ask r next ih =>
    rcases asked with rfl | ⟨x, w', step, rest⟩
    · exact h.1
    · exact ih x (h.2 x (fit r w x w' step)) rest

theorem Confined.safe {I : W → Prop}
    (keeps : ∀ r w x w', ok r → env r w x w' → I w → fits r x ∧ I w') {w : W} (hw : I w) :
    p.Safe env I w fun a w' => I w' ∧ Q a := by
  induction p generalizing w with
  | ret a => exact ⟨hw, hw, h⟩
  | ask r next ih =>
    refine ⟨hw, fun x w' step => ?_⟩
    obtain ⟨hx, hw'⟩ := keeps r w x w' h.1 step hw
    exact ih x (h.2 x hx) hw'

/-- A program can end as it does when every request is answered by `answer`, if `env` allows that
for the requests it can ask. -/
theorem Confined.runs (fit : ∀ r w, fits r (answer r w).1)
    (allowed : ∀ r w, ok r → env r w (answer r w).1 (answer r w).2) (w : W) :
    p.Runs env w (p.run answer w).1 (p.run answer w).2 := by
  induction p generalizing w with
  | ret a => exact ⟨rfl, rfl⟩
  | ask r next ih => exact ⟨_, _, allowed r w h.1, ih _ (h.2 _ (fit r w)) _⟩

theorem Confined.run_congr {rel : W → W → Prop} (fit : ∀ r w, fits r (answer r w).1)
    (alike : ∀ r w w', ok r → rel w w' → (answer r w).1 = (answer r w').1 ∧
      rel (answer r w).2 (answer r w').2)
    {w w' : W} (hw : rel w w') :
    (p.run answer w).1 = (p.run answer w').1 ∧ rel (p.run answer w).2 (p.run answer w').2 := by
  induction p generalizing w w' with
  | ret a => exact ⟨rfl, hw⟩
  | ask r next ih =>
    obtain ⟨hreply, hnext⟩ := alike r w w' h.1 hw
    rw [run_ask, run_ask, ← hreply]
    exact ih _ (h.2 _ (fit r w)) hnext

end Confined

end Prog

end Request
