import IscsiS3.Lib.Request
import IscsiS3.Store

/-! Calls of a block store.  A call is a program that asks requests of the service below and passes
the store's own state along; it ends with a value, an error, a panic, or in a wait for another
thread.  An error keeps the state that the call had reached. -/

namespace IscsiS3

open Request

inductive Outcome (α : Type) where
  | ok (a : α)
  | error (e : StoreError)
  | panic
  | waits
  deriving DecidableEq, Repr

def Outcome.of {α : Type} : Except StoreError α → Outcome α
  | .ok a => .ok a
  | .error e => .error e

theorem Outcome.of_eq_ok {α : Type} {r : Except StoreError α} {a : α}
    (h : Outcome.of r = .ok a) : r = .ok a := by
  cases r with
  | ok b => exact congrArg Except.ok (Outcome.ok.inj h)
  | error e => cases h

def Outcome.map {α β : Type} (f : α → β) : Outcome α → Outcome β
  | .ok a => .ok (f a)
  | .error e => .error e
  | .panic => .panic
  | .waits => .waits

def Outcome.bind {α β : Type} (r : Outcome α) (f : α → Outcome β) : Outcome β :=
  match r with
  | .ok a => f a
  | .error e => .error e
  | .panic => .panic
  | .waits => .waits

theorem Outcome.map_eq_ok {α β : Type} {f : α → β} {r : Outcome α} {b : β} :
    r.map f = .ok b ↔ ∃ a, r = .ok a ∧ f a = b := by
  cases r <;> simp [Outcome.map]

theorem Outcome.bind_eq_ok {α β : Type} {r : Outcome α} {f : α → Outcome β} {b : β} :
    r.bind f = .ok b ↔ ∃ a, r = .ok a ∧ f a = .ok b := by
  cases r <;> simp [Outcome.bind]

def Outcome.toOption {α : Type} : Outcome α → Outcome (Option α)
  | .ok a => .ok (some a)
  | .error _ => .ok none
  | .panic => .panic
  | .waits => .waits

def StoreM {Req : Type} (Reply : Req → Type) (S α : Type) : Type :=
  S → Prog Req Reply (Outcome α × S)

namespace StoreM

variable {Req : Type} {Reply : Req → Type} {S T α β W : Type}

def next (f : α → StoreM Reply S β) (r : Outcome α × S) : Prog Req Reply (Outcome β × S) :=
  match r.1 with
  | .ok a => f a r.2
  | .error e => .ret (.error e, r.2)
  | .panic => .ret (.panic, r.2)
  | .waits => .ret (.waits, r.2)

instance : Monad (StoreM Reply S) where
  pure a := fun s => .ret (.ok a, s)
  bind m f := fun s => (m s).bind (next f)

def done (r : Outcome α) : StoreM Reply S α := fun s => .ret (r, s)

def throw (e : StoreError) : StoreM Reply S α := done (.error e)

def get : StoreM Reply S S := fun s => .ret (.ok s, s)

def modify (f : S → S) : StoreM Reply S Unit := fun s => .ret (.ok (), f s)

def lift (r : Except StoreError α) : StoreM Reply S α := done (.of r)

def request (r : Req) : StoreM Reply S (Reply r) := fun s => .ask r fun x => .ret (.ok x, s)

/-- The call's error as a value, for a caller that handles it. -/
def attempt (m : StoreM Reply S α) : StoreM Reply S (Except StoreError α) := fun s =>
  (m s).bind fun r => match r.1 with
    | .ok a => .ret (.ok (.ok a), r.2)
    | .error e => .ret (.ok (.error e), r.2)
    | .panic => .ret (.panic, r.2)
    | .waits => .ret (.waits, r.2)

def within (part : S → T) (put : S → T → S) (m : StoreM Reply T α) : StoreM Reply S α := fun s =>
  (m (part s)).bind fun r => .ret (r.1, put s r.2)

def each (f : β → StoreM Reply S Unit) : List β → StoreM Reply S Unit
  | [] => pure ()
  | x :: xs => do
    f x
    each f xs

def collect (f : β → StoreM Reply S α) : List β → StoreM Reply S (List α)
  | [] => pure []
  | x :: xs => do
    let a ← f x
    let rest ← collect f xs
    pure (a :: rest)

@[simp] theorem get_bind (f : S → StoreM Reply S β) (s : S) : (get >>= f) s = f s s := rfl

@[simp] theorem modify_bind (g : S → S) (f : Unit → StoreM Reply S β) (s : S) :
    (modify g >>= f) s = f () (g s) := rfl

theorem bind_assoc {γ : Type} (m : StoreM Reply S α) (f : α → StoreM Reply S β)
    (g : β → StoreM Reply S γ) : (m >>= f) >>= g = m >>= fun a => f a >>= g := by
  funext s
  refine (Prog.bind_assoc (m s) (next f) (next g)).trans (congrArg (m s).bind (funext fun r => ?_))
  obtain ⟨o, s'⟩ := r
  cases o <;> rfl

variable {e : StoreError}

theorem attempt_bind {m : StoreM Reply S α} {s s' : S} (h : m s = .ret (.error e, s'))
    (f : Except StoreError α → StoreM Reply S β) :
    (m.attempt >>= f) s = f (.error e) s' := by
  change ((m s).bind _).bind _ = _
  rw [h]
  rfl

/-- `Safe` for calls: the postcondition is about how the call ends and both states. -/
def Safe (env : Env Req Reply W) (I : W → Prop) (m : StoreM Reply S α) (s : S) (w : W)
    (Q : Outcome α → S → W → Prop) : Prop :=
  (m s).Safe env I w fun r w' => Q r.1 r.2 w'

/-- The postcondition of a call that another one follows. -/
def Then (Q : Outcome β → S → W → Prop) (f : α → S → W → Prop) : Outcome α → S → W → Prop
  | .ok a, s, w => f a s w
  | .error e, s, w => Q (.error e) s w
  | .panic, s, w => Q .panic s w
  | .waits, s, w => Q .waits s w

variable {a : α} {J : W → Prop}

section Rules

variable {env : Env Req Reply W} {I : W → Prop} {s : S} {w : W} {Q : Outcome α → S → W → Prop}
variable {m : StoreM Reply S α}

theorem Safe.inv (h : m.Safe env I s w Q) :
    I w := Prog.Safe.inv h

theorem Safe.mono {Q Q' : Outcome α → S → W → Prop} (h : m.Safe env I s w Q)
    (imp : ∀ r s' w', I w' → Q r s' w' → Q' r s' w') :
    m.Safe env I s w Q' :=
  Prog.Safe.mono h fun r w' hI hQ => imp r.1 r.2 w' hI hQ

theorem Safe.weaken (h : m.Safe env I s w Q) (imp : ∀ w', I w' → J w') :
    m.Safe env J s w Q :=
  Prog.Safe.weaken h (fun _ _ _ _ => id) imp

theorem Safe.done {r : Outcome α} (hI : I w) (h : Q r s w) :
    (done r : StoreM Reply S α).Safe env I s w Q := ⟨hI, h⟩

theorem Safe.pure (hI : I w) (h : Q (.ok a) s w) :
    (Pure.pure a : StoreM Reply S α).Safe env I s w Q := ⟨hI, h⟩

theorem Safe.bind {f : α → StoreM Reply S β} {Q : Outcome β → S → W → Prop}
    (h : m.Safe env I s w (Then Q fun a s' w' => (f a).Safe env I s' w' Q)) :
    (m >>= f).Safe env I s w Q := by
  refine Prog.Safe.bind (Prog.Safe.mono h fun r w' hI hQ => ?_)
  obtain ⟨o, s'⟩ := r
  cases o with
  | ok a => exact hQ
  | error _ | panic | waits => exact ⟨hI, hQ⟩

theorem Safe.get {Q : Outcome S → S → W → Prop} (hI : I w) (h : Q (.ok s) s w) :
    (StoreM.get : StoreM Reply S S).Safe env I s w Q := ⟨hI, h⟩

theorem Safe.modify {f : S → S} {Q : Outcome Unit → S → W → Prop} (hI : I w)
    (h : Q (.ok ()) (f s) w) : (StoreM.modify f : StoreM Reply S Unit).Safe env I s w Q := ⟨hI, h⟩

theorem Safe.lift {r : Except StoreError α} (hI : I w) (ok : ∀ a, r = .ok a → Q (.ok a) s w)
    (error : ∀ e, r = .error e → Q (.error e) s w) :
    (StoreM.lift r : StoreM Reply S α).Safe env I s w Q := by
  cases r with
  | ok a => exact ⟨hI, ok a rfl⟩
  | error e => exact ⟨hI, error e rfl⟩

theorem Safe.request {r : Req} {Q : Outcome (Reply r) → S → W → Prop} (hI : I w)
    (h : ∀ x w', env r w x w' → I w' ∧ Q (.ok x) s w') :
    (StoreM.request r : StoreM Reply S (Reply r)).Safe env I s w Q := ⟨hI, h⟩

theorem Safe.attempt {Q : Outcome (Except StoreError α) → S → W → Prop}
    (h : m.Safe env I s w fun r s' w' => match r with
      | .ok a => Q (.ok (.ok a)) s' w'
      | .error e => Q (.ok (.error e)) s' w'
      | .panic => Q .panic s' w'
      | .waits => Q .waits s' w') : m.attempt.Safe env I s w Q := by
  refine Prog.Safe.bind (Prog.Safe.mono h fun r w' hI hQ => ?_)
  obtain ⟨o, s'⟩ := r
  cases o <;> exact ⟨hI, hQ⟩

theorem Safe.within {part : S → T} {put : S → T → S} {m : StoreM Reply T α}
    (h : m.Safe env I (part s) w fun r t w' => Q r (put s t) w') :
    (m.within part put).Safe env I s w Q :=
  Prog.Safe.bind (Prog.Safe.mono h fun _ _ hI hQ => ⟨hI, hQ⟩)

end Rules

/-- How a call ends that keeps `K`: with a value that satisfies `R`, or without one. -/
def Ends (K : S → W → Prop) (R : α → S → W → Prop) : Outcome α → S → W → Prop
  | .ok a, s, w => K s w ∧ R a s w
  | _, s, w => K s w

/-- The call keeps the relation `K` between the state of the store and that of the service: it holds
at every request boundary and however the call ends.  A value satisfies `R`. -/
def Keeps (env : Env Req Reply W) (K : S → W → Prop) (m : StoreM Reply S α) (s : S) (w : W)
    (R : α → S → W → Prop) : Prop :=
  m.Safe env (fun w => ∃ s, K s w) s w (Ends K R)

section Keeps

variable {env : Env Req Reply W} {K : S → W → Prop} {s : S} {w : W} {R : α → S → W → Prop}
variable {r : Outcome α}

theorem Ends.keeps (h : Ends K R r s w) : K s w := by
  cases r with
  | ok a => exact h.1
  | error _ | panic | waits => exact h

variable {m : StoreM Reply S α} {f : β → StoreM Reply S α}

theorem Keeps.ends (h : m.Keeps env K s w R) :
    m.Safe env (fun _ => True) s w fun _ s' w' => K s' w' :=
  (Safe.weaken h fun _ _ => trivial).mono fun _ _ _ _ => Ends.keeps

theorem Keeps.mono {R R' : α → S → W → Prop} (h : m.Keeps env K s w R)
    (imp : ∀ a s' w', K s' w' → R a s' w' → R' a s' w') : m.Keeps env K s w R' := by
  refine Safe.mono h fun r s' w' _ hr => ?_
  cases r with
  | ok a => exact ⟨hr.1, imp a s' w' hr.1 hr.2⟩
  | error _ | panic | waits => exact hr

theorem Keeps.safe (h : m.Keeps env K s w R) (imp : ∀ s w, K s w → J w) :
    (m s).Safe env J w fun r w' => Ends K R r.1 r.2 w' :=
  Prog.Safe.weaken h (fun _ _ _ _ => id) fun w' ⟨s', hs'⟩ => imp s' w' hs'

theorem Keeps.weaken {L : S → W → Prop} (h : m.Keeps env K s w R) (imp : ∀ s w, K s w → L s w) :
    m.Keeps env L s w fun a s' w' => K s' w' ∧ R a s' w' := by
  refine Safe.mono (Safe.weaken h fun w' hw => hw.imp fun s' => imp s' w') fun r s' w' _ hr => ?_
  cases r with
  | ok a => exact ⟨imp _ _ hr.1, hr⟩
  | error _ | panic | waits => exact imp _ _ hr

theorem Keeps.done (hK : K s w) (h : ∀ a, r = .ok a → R a s w) :
    (done r : StoreM Reply S α).Keeps env K s w R := by
  refine ⟨⟨s, hK⟩, ?_⟩
  cases r with
  | ok a => exact ⟨hK, h a rfl⟩
  | error _ | panic | waits => exact hK

theorem Keeps.pure (hK : K s w) (h : R a s w) :
    (Pure.pure a : StoreM Reply S α).Keeps env K s w R := ⟨⟨s, hK⟩, hK, h⟩

theorem Keeps.throw (hK : K s w) :
    (throw e : StoreM Reply S α).Keeps env K s w R := ⟨⟨s, hK⟩, hK⟩

theorem Keeps.bind {f : α → StoreM Reply S β} {R : β → S → W → Prop}
    (h : m.Keeps env K s w fun a s' w' => (f a).Keeps env K s' w' R) :
    (m >>= f).Keeps env K s w R := by
  refine Safe.bind (Safe.mono h fun r s' w' _ hr => ?_)
  cases r with
  | ok a => exact hr.2
  | error _ | panic | waits => exact hr

theorem Keeps.get {R : S → S → W → Prop} (hK : K s w) (h : R s s w) :
    (StoreM.get : StoreM Reply S S).Keeps env K s w R := ⟨⟨s, hK⟩, hK, h⟩

theorem Keeps.modify {f : S → S} {R : Unit → S → W → Prop} (hK : K s w) (hK' : K (f s) w)
    (h : R () (f s) w) : (StoreM.modify f : StoreM Reply S Unit).Keeps env K s w R :=
  ⟨⟨s, hK⟩, hK', h⟩

theorem Keeps.lift {r : Except StoreError α} (hK : K s w) (h : ∀ a, r = .ok a → R a s w) :
    (StoreM.lift r : StoreM Reply S α).Keeps env K s w R := by
  cases r with
  | ok a => exact Keeps.pure hK (h a rfl)
  | error e => exact Keeps.throw hK

theorem Keeps.request {r : Req} {R : Reply r → S → W → Prop} (hK : K s w)
    (h : ∀ x w', env r w x w' → K s w' ∧ R x s w') :
    (StoreM.request r : StoreM Reply S (Reply r)).Keeps env K s w R :=
  ⟨⟨s, hK⟩, fun x w' step => ⟨⟨s, (h x w' step).1⟩, h x w' step⟩⟩

theorem Keeps.attempt {R : Except StoreError α → S → W → Prop}
    (h : m.Keeps env K s w fun a s' w' => R (.ok a) s' w')
    (error : ∀ e s' w', K s' w' → R (.error e) s' w') : m.attempt.Keeps env K s w R := by
  refine Safe.attempt (Safe.mono h fun r s' w' _ hr => ?_)
  cases r with
  | ok a => exact hr
  | error e => exact ⟨hr, error e s' w' hr⟩
  | panic | waits => exact hr

theorem Keeps.within {part : S → T} {put : S → T → S} {m : StoreM Reply T α}
    (h : m.Keeps env (fun t w' => K (put s t) w') (part s) w fun a t w' => R a (put s t) w') :
    (m.within part put).Keeps env K s w R := by
  refine Safe.within (Safe.mono (Safe.weaken h ?_) ?_)
  · rintro w' ⟨t, ht⟩
    exact ⟨_, ht⟩
  · intro r t w' _ hr
    cases r with
    | ok _ | error _ | panic | waits => exact hr

theorem Keeps.each {f : β → StoreM Reply S Unit} (L : List β → S → W → Prop) (xs : List β)
    (hK : K s w) (h : L xs s w)
    (turn : ∀ x xs s w, K s w → L (x :: xs) s w →
      (f x).Keeps env K s w fun _ s' w' => L xs s' w') :
    (each f xs).Keeps env K s w fun _ s' w' => L [] s' w' := by
  induction xs generalizing s w with
  | nil => exact Keeps.pure hK h
  | cons x xs ih =>
    exact Keeps.bind ((turn x xs s w hK h).mono fun _ s' w' hK' hL => ih hK' hL)

theorem Keeps.collect (L : List β → S → W → Prop) (xs : List β) (hK : K s w) (h : L xs s w)
    (turn : ∀ x xs s w, K s w → L (x :: xs) s w → (f x).Keeps env K s w fun _ s' w' => L xs s' w') :
    (collect f xs).Keeps env K s w fun _ s' w' => L [] s' w' := by
  induction xs generalizing s w with
  | nil => exact Keeps.pure hK h
  | cons x xs ih =>
    refine Keeps.bind ((turn x xs s w hK h).mono fun _ s' w' hK' hL => ?_)
    exact Keeps.bind ((ih hK' hL).mono fun _ s' w' hK' hL => Keeps.pure hK' hL)

theorem Keeps.collect_forall₂ {R : β → α → Prop} (xs : List β) (hK : K s w)
    (turn : ∀ x s w, K s w → (f x).Keeps env K s w fun a _ _ => R x a) :
    (StoreM.collect f xs).Keeps env K s w fun as _ _ => List.Forall₂ R xs as := by
  induction xs generalizing s w with
  | nil => exact Keeps.pure hK List.Forall₂.nil
  | cons x xs ih =>
    refine Keeps.bind ((turn x s w hK).mono fun a s' w' hK' ha => ?_)
    exact Keeps.bind ((ih hK').mono fun as s' w' hK' has => Keeps.pure hK'
      (List.Forall₂.cons ha has))

end Keeps

/-- The call changes neither state, and how it ends satisfies `R`. -/
def Reads (env : Env Req Reply W) (m : StoreM Reply S α) (s : S) (w : W) (R : Outcome α → Prop) :
    Prop :=
  m.Safe env (· = w) s w fun r s' w' => s' = s ∧ w' = w ∧ R r

def Value (P : α → Prop) (r : Outcome α) : Prop := ∀ a, r = .ok a → P a

def Returns (P : α → Prop) (r : Outcome α) : Prop := ∃ a, r = .ok a ∧ P a

variable {put : T → S → T} {part : T → S} {t : T} {g : S → S}

section Reads

variable {env : Env Req Reply W} {K : S → W → Prop} {s : S} {w : W} {m : StoreM Reply S α}
variable {f : α → StoreM Reply S β} {R R' : Outcome α → Prop} {P : α → Prop}

theorem Value.ok : Value P (.ok a) ↔ P a :=
  ⟨fun h => h a rfl, fun h _ heq => Outcome.ok.inj heq ▸ h⟩

theorem Returns.ok : Returns P (.ok a) ↔ P a :=
  ⟨fun ⟨_, heq, h⟩ => Outcome.ok.inj heq ▸ h, fun h => ⟨a, rfl, h⟩⟩

section

variable (h : m.Reads env s w R)

include h

theorem Reads.mono (imp : ∀ r, R r → R' r) : m.Reads env s w R' :=
  Safe.mono h fun r _ _ _ hr => ⟨hr.1, hr.2.1, imp r hr.2.2⟩

theorem Reads.keeps {P' : α → S → W → Prop} (hK : K s w) (imp : ∀ a, R (.ok a) → P' a s w) :
    m.Keeps env K s w P' := by
  refine Safe.mono (Safe.weaken h ?_) ?_
  · rintro w' rfl
    exact ⟨s, hK⟩
  · rintro r s' w' _ ⟨rfl, rfl, hr⟩
    cases r with
    | ok a => exact ⟨hK, imp a hr⟩
    | error _ | panic | waits => exact hK

theorem Reads.then {P' : β → S → W → Prop} (hK : K s w)
    (rest : ∀ a, R (.ok a) → (f a).Keeps env K s w P') : (m >>= f).Keeps env K s w P' :=
  Keeps.bind (h.keeps hK rest)

theorem Reads.bind {P' : β → Prop} (rest : ∀ a, R (.ok a) → (f a).Reads env s w (Value P')) :
    (m >>= f).Reads env s w (Value P') := by
  refine Safe.bind (Safe.mono h ?_)
  rintro r s' w' _ ⟨rfl, rfl, hr⟩
  cases r with
  | ok a => exact rest a hr
  | error _ | panic | waits => exact ⟨rfl, rfl, nofun⟩

end

theorem Reads.bind_returns {R' : Outcome β → Prop} (h : m.Reads env s w (Returns P))
    (rest : ∀ a, P a → (f a).Reads env s w R') : (m >>= f).Reads env s w R' := by
  refine Safe.bind (Safe.mono h ?_)
  rintro r s' w' _ ⟨rfl, rfl, a, rfl, ha⟩
  exact rest a ha

theorem Reads.done {r : Outcome α} (h : R r) : (done r : StoreM Reply S α).Reads env s w R :=
  ⟨rfl, rfl, rfl, h⟩

theorem Reads.pure (h : R (.ok a)) : (Pure.pure a : StoreM Reply S α).Reads env s w R :=
  ⟨rfl, rfl, rfl, h⟩

theorem Reads.throw (h : R (.error e)) :
    (throw e : StoreM Reply S α).Reads env s w R := ⟨rfl, rfl, rfl, h⟩

theorem Reads.lift {r : Except StoreError α} (ok : ∀ a, r = .ok a → R (.ok a))
    (error : ∀ e, r = .error e → R (.error e)) :
    (StoreM.lift r : StoreM Reply S α).Reads env s w R := by
  cases r with
  | ok a => exact Reads.pure (ok a rfl)
  | error e => exact Reads.throw (error e rfl)

theorem Reads.get : (StoreM.get : StoreM Reply S S).Reads env s w (Returns (· = s)) :=
  ⟨rfl, rfl, rfl, s, rfl, rfl⟩

theorem Reads.request {r : Req} {R : Outcome (Reply r) → Prop}
    (h : ∀ x w', env r w x w' → w' = w ∧ R (.ok x)) :
    (StoreM.request r : StoreM Reply S (Reply r)).Reads env s w R :=
  ⟨rfl, fun x w' step => ⟨(h x w' step).1, rfl, (h x w' step).1, (h x w' step).2⟩⟩

theorem Reads.attempt {R : Outcome (Except StoreError α) → Prop}
    (h : m.Reads env s w fun r => match r with
      | .ok a => R (.ok (.ok a))
      | .error e => R (.ok (.error e))
      | .panic => R .panic
      | .waits => R .waits) : m.attempt.Reads env s w R := by
  refine Safe.attempt (Safe.mono h ?_)
  rintro r s' w' _ ⟨rfl, rfl, hr⟩
  cases r <;> exact ⟨rfl, rfl, hr⟩

theorem Reads.within (h : m.Reads env (part t) w R) (hput : put t (part t) = t) :
    (m.within part put).Reads env t w R := by
  refine Safe.within (Safe.mono h ?_)
  rintro r s' w' _ ⟨rfl, rfl, hr⟩
  exact ⟨hput, rfl, hr⟩

end Reads

def Anything : Env Req Reply Unit := fun _ _ _ _ => True

theorem runs_anything (answer : (r : Req) → W → Reply r × W) (p : Prog Req Reply α) (w : W) :
    p.Runs Anything () (p.run answer w).1 () := by
  induction p generalizing w with
  | ret a => exact ⟨rfl, rfl⟩
  | ask r next ih => exact ⟨_, (), trivial, ih _ _⟩

/-- The call keeps a property of the store's state, whatever the service answers and however the
call ends. -/
def Preserves (K : S → Prop) (m : StoreM Reply S α) : Prop :=
  ∀ s, K s → m.Keeps Anything (fun s _ => K s) s () fun _ _ _ => True

section Preserves

variable {K : S → Prop} {m : StoreM Reply S α} {f : α → StoreM Reply S β}

theorem Preserves.done (r : Outcome α) : Preserves K (done r : StoreM Reply S α) := fun _ h =>
  Keeps.done h fun _ _ => trivial

theorem Preserves.pure (a : α) : Preserves K (Pure.pure a : StoreM Reply S α) := .done _

theorem Preserves.throw (e : StoreError) : Preserves K (throw e : StoreM Reply S α) := .done _

theorem Preserves.lift (r : Except StoreError α) : Preserves K (lift r : StoreM Reply S α) :=
  .done _

theorem Preserves.bind (hm : Preserves K m) (hf : ∀ a, Preserves K (f a)) : Preserves K (m >>= f) :=
  fun s h => Keeps.bind ((hm s h).mono fun a s' _ hs' _ => hf a s' hs')

theorem Preserves.get {f : S → StoreM Reply S β}
    (hf : ∀ s, K s → (f s).Keeps Anything (fun s _ => K s) s () fun _ _ _ => True) :
    Preserves K (StoreM.get >>= f) := fun s h => Keeps.bind (Keeps.get h (hf s h))

theorem Preserves.modify (h : ∀ s, K s → K (g s)) :
    Preserves K (StoreM.modify g : StoreM Reply S Unit) := fun s hs =>
  Keeps.modify hs (h s hs) trivial

theorem Preserves.request (r : Req) :
    Preserves K (StoreM.request r : StoreM Reply S (Reply r)) := fun _ h =>
  Keeps.request h fun _ _ _ => ⟨h, True.intro⟩

theorem Preserves.attempt (hm : Preserves K m) : Preserves K m.attempt := fun s h =>
  Keeps.attempt (hm s h) fun _ _ _ _ => trivial

theorem Preserves.within {part : S → T} {put : S → T → S} {L : T → Prop} {m : StoreM Reply T α}
    (hm : Preserves L m) (hL : ∀ s, K s → L (part s)) (hK : ∀ s t, K s → L t → K (put s t)) :
    Preserves K (m.within part put) := fun s h => by
  refine Keeps.within ((Keeps.weaken (hm (part s) (hL s h)) fun t _ ht => hK s t h ht).mono ?_)
  exact fun _ _ _ _ _ => trivial

theorem Preserves.each {f : β → StoreM Reply S Unit} (xs : List β) (h : ∀ x, Preserves K (f x)) :
    Preserves K (each f xs) := by
  induction xs with
  | nil => exact .pure ()
  | cons x xs ih => exact .bind (h x) fun _ => ih

theorem Preserves.collect {f : β → StoreM Reply S α} (xs : List β) (h : ∀ x, Preserves K (f x)) :
    Preserves K (collect f xs) := by
  induction xs with
  | nil => exact .pure _
  | cons x xs ih => exact .bind (h x) fun _ => .bind ih fun _ => .pure _

theorem Preserves.trivial (h : ∀ s, K s) : Preserves K m := fun s _ => by
  have safe : ∀ p : Prog Req Reply (Outcome α × S), p.Safe Anything (fun _ => ∃ s, K s) ()
      fun r w => Ends (fun s _ => K s) (fun _ _ _ => True) r.1 r.2 w := by
    intro p
    induction p with
    | ret r =>
      obtain ⟨r, s'⟩ := r
      refine ⟨⟨s, h s⟩, ?_⟩
      cases r with
      | ok a => exact ⟨h s', True.intro⟩
      | error _ | panic | waits => exact h s'
    | ask r next ih => exact ⟨⟨s, h s⟩, fun x _ _ => ih x⟩
  exact safe (m s)

theorem Preserves.keeps {L : S → Prop} {s : S} (hm : Preserves K m) (hs : K s)
    (imp : ∀ s, K s → L s) : m.Keeps Anything (fun s _ => L s) s () fun _ s' _ => K s' :=
  (Keeps.weaken (hm s hs) fun s' _ => imp s').mono fun _ _ _ _ h => h.1

end Preserves

/-- The call asks nothing, leaves the state as it is and ends with an error. -/
def Refused (m : StoreM Reply S α) (s : S) : Prop := ∃ e, m s = .ret (.error e, s)

variable {K : S → W → Prop}

section Refused

variable {m : StoreM Reply S α} {s : S}

theorem Refused.throw (e : StoreError) : (throw e : StoreM Reply S α).Refused s := ⟨e, rfl⟩

theorem Refused.get {f : S → StoreM Reply S β} (h : (f s).Refused s) :
    (StoreM.get >>= f).Refused s := h

theorem Refused.bind (h : m.Refused s) (f : α → StoreM Reply S β) : (m >>= f).Refused s := by
  obtain ⟨e, he⟩ := h
  refine ⟨e, ?_⟩
  change (m s).bind (next f) = _
  rw [he]
  rfl

theorem Refused.lift {r : Except StoreError α} {f : α → StoreM Reply S β}
    (h : ∀ a, r = .ok a → (f a).Refused s) : (StoreM.lift r >>= f).Refused s := by
  cases r with
  | ok a => exact h a rfl
  | error e => exact ⟨e, rfl⟩

theorem Refused.within (h : m.Refused (part t)) (hput : put t (part t) = t) :
    (m.within part put).Refused t := by
  obtain ⟨e, he⟩ := h
  refine ⟨e, ?_⟩
  change (m (part t)).bind _ = _
  rw [he]
  exact congrArg (fun t => Prog.ret (Outcome.error e, t)) hput

theorem Refused.keeps {env : Env Req Reply W} {w : W} {R : α → S → W → Prop} (h : m.Refused s)
    (hK : K s w) : m.Keeps env K s w R := by
  obtain ⟨e, he⟩ := h
  have hthrow : (StoreM.throw e : StoreM Reply S α).Keeps env K s w R := Keeps.throw hK
  unfold Keeps Safe at hthrow ⊢
  rw [he]
  exact hthrow

theorem Refused.preserves {K : S → Prop} (h : ∀ s, K s → m.Refused s) : Preserves K m :=
  fun s hs => (h s hs).keeps hs

end Refused

/-- The call ends with a value, and the value and the two states satisfy `Q`. -/
def Succeeds (env : Env Req Reply W) (m : StoreM Reply S α) (s : S) (w : W)
    (Q : α → S → W → Prop) : Prop :=
  m.Safe env (fun _ => True) s w fun r s' w' => ∃ a, r = .ok a ∧ Q a s' w'

variable {P : α → Prop}

section Succeeds

variable {env : Env Req Reply W} {s : S} {w : W} {m : StoreM Reply S α}
variable {f : α → StoreM Reply S β} {Q : α → S → W → Prop} {Q' : β → S → W → Prop}

theorem Succeeds.mono {Q' : α → S → W → Prop} (h : m.Succeeds env s w Q)
    (imp : ∀ a s' w', Q a s' w' → Q' a s' w') : m.Succeeds env s w Q' :=
  Safe.mono h fun _ _ _ _ ⟨a, hr, ha⟩ => ⟨a, hr, imp a _ _ ha⟩

theorem Succeeds.bind (h : m.Succeeds env s w fun a s' w' => (f a).Succeeds env s' w' Q') :
    (m >>= f).Succeeds env s w Q' := by
  refine Safe.bind (Safe.mono h ?_)
  rintro r s' w' - ⟨a, rfl, ha⟩
  exact ha

theorem Succeeds.pure (h : Q a s w) :
    (Pure.pure a : StoreM Reply S α).Succeeds env s w Q := ⟨trivial, a, rfl, h⟩

theorem Succeeds.get {Q : S → S → W → Prop} (h : Q s s w) :
    (StoreM.get : StoreM Reply S S).Succeeds env s w Q := ⟨trivial, s, rfl, h⟩

theorem Succeeds.modify {Q : Unit → S → W → Prop} (h : Q () (g s) w) :
    (StoreM.modify g : StoreM Reply S Unit).Succeeds env s w Q := ⟨trivial, (), rfl, h⟩

theorem Succeeds.lift {r : Except StoreError α} (hr : r = .ok a) (h : Q a s w) :
    (StoreM.lift r : StoreM Reply S α).Succeeds env s w Q := ⟨trivial, a, by rw [hr]; rfl, h⟩

theorem Succeeds.attempt {Q : Except StoreError α → S → W → Prop}
    (h : m.Succeeds env s w fun a s' w' => Q (.ok a) s' w') : m.attempt.Succeeds env s w Q := by
  refine Safe.attempt (Safe.mono h ?_)
  rintro r s' w' - ⟨a, rfl, ha⟩
  exact ⟨.ok a, rfl, ha⟩

theorem Succeeds.keeps {R : α → S → W → Prop} (h : m.Succeeds env s w Q)
    (hk : m.Keeps env K s w R) :
    m.Succeeds env s w fun a s' w' => Q a s' w' ∧ K s' w' ∧ R a s' w' := by
  refine (Prog.Safe.and h (Prog.Safe.weaken hk (fun _ _ _ _ => id) fun _ _ => trivial)).weaken
    (fun _ _ _ _ => id) (fun _ h => h.1) |>.mono ?_
  rintro ⟨r, s'⟩ w' - ⟨⟨a, hr, hQ⟩, hends⟩
  obtain rfl : r = .ok a := hr
  exact ⟨a, rfl, hQ, hends⟩

theorem Reads.succeeds (h : m.Reads env s w (Returns P)) :
    m.Succeeds env s w fun a s' w' => s' = s ∧ w' = w ∧ P a := by
  refine Safe.mono (Safe.weaken h fun _ _ => trivial) ?_
  rintro r s' w' - ⟨rfl, rfl, a, rfl, ha⟩
  exact ⟨a, rfl, rfl, rfl, ha⟩

theorem Reads.andThen (h : m.Reads env s w (Returns P))
    (rest : ∀ a, P a → (f a).Succeeds env s w Q') : (m >>= f).Succeeds env s w Q' := by
  refine Succeeds.bind (h.succeeds.mono ?_)
  rintro a _ _ ⟨rfl, rfl, ha⟩
  exact rest a ha

theorem Succeeds.each {g : β → StoreM Reply S Unit} (L : List β → S → W → Prop) (xs : List β)
    (h : L xs s w)
    (turn : ∀ x xs s w, L (x :: xs) s w → (g x).Succeeds env s w fun _ s' w' => L xs s' w') :
    (each g xs).Succeeds env s w fun _ s' w' => L [] s' w' := by
  induction xs generalizing s w with
  | nil => exact Succeeds.pure h
  | cons x xs ih => exact Succeeds.bind ((turn x xs s w h).mono fun _ _ _ hL => ih hL)

theorem Succeeds.collect {g : β → StoreM Reply S α} (value : β → α) (xs : List β) (h : K s w)
    (turn : ∀ x ∈ xs, ∀ s w, K s w → (g x).Succeeds env s w fun a s' w' => a = value x ∧ K s' w') :
    (collect g xs).Succeeds env s w fun as s' w' => as = xs.map value ∧ K s' w' := by
  induction xs generalizing s w with
  | nil => exact Succeeds.pure ⟨rfl, h⟩
  | cons x xs ih =>
    refine Succeeds.bind ((turn x (by simp) s w h).mono ?_)
    rintro _ s₁ w₁ ⟨rfl, h₁⟩
    refine Succeeds.bind ((ih h₁ fun y hy => turn y (List.mem_cons_of_mem _ hy)).mono ?_)
    rintro _ s₂ w₂ ⟨rfl, h₂⟩
    exact Succeeds.pure ⟨rfl, h₂⟩

theorem Succeeds.within {Q : α → T → W → Prop}
    (h : m.Succeeds env (part t) w fun a s' w' => Q a (put t s') w') :
    (m.within part put).Succeeds env t w Q := Safe.within h

theorem Succeeds.exec {answer : (r : Req) → W → Reply r × W} (h : m.Succeeds env s w Q)
    (allowed : ∀ r w, env r w (answer r w).1 (answer r w).2) :
    ∃ a s' w', (m s).run answer w = ((.ok a, s'), w') ∧ Q a s' w' := by
  have hrun := Prog.Safe.run h allowed
  generalize (m s).run answer w = result at hrun
  obtain ⟨⟨r, s'⟩, w'⟩ := result
  obtain ⟨a, rfl, ha⟩ := hrun
  exact ⟨a, s', w', rfl, ha⟩

end Succeeds

/-- The call ends in a wait, which it does only if `late`, or with a value, and the value and the
two states satisfy `Q`. -/
def Finishes (env : Env Req Reply W) (late : Prop) (m : StoreM Reply S α) (s : S) (w : W)
    (Q : α → S → W → Prop) : Prop :=
  m.Safe env (fun _ => True) s w fun r s' w' => r = .waits ∧ late ∨ ∃ a, r = .ok a ∧ Q a s' w'

section Finishes

variable {env : Env Req Reply W} {late : Prop} {s : S} {w : W} {m : StoreM Reply S α}
variable {Q : α → S → W → Prop} {f : α → StoreM Reply S β} {Q' : β → S → W → Prop}

theorem Succeeds.finishes (h : m.Succeeds env s w Q) : m.Finishes env late s w Q :=
  Safe.mono h fun _ _ _ _ hr => .inr hr

theorem Finishes.waits (h : late) : (done .waits : StoreM Reply S α).Finishes env late s w Q :=
  ⟨trivial, .inl ⟨rfl, h⟩⟩

theorem Finishes.mono {Q' : α → S → W → Prop} (h : m.Finishes env late s w Q)
    (imp : ∀ a s' w', Q a s' w' → Q' a s' w') : m.Finishes env late s w Q' :=
  Safe.mono h fun _ _ _ _ hr => hr.imp id fun ⟨a, ha, hQ⟩ => ⟨a, ha, imp a _ _ hQ⟩

theorem Finishes.bind
    (h : m.Finishes env late s w fun a s' w' => (f a).Finishes env late s' w' Q') :
    (m >>= f).Finishes env late s w Q' := by
  refine Safe.bind (Safe.mono h ?_)
  rintro r s' w' - (⟨rfl, hlate⟩ | ⟨a, rfl, ha⟩)
  · exact .inl ⟨rfl, hlate⟩
  · exact ha

theorem Succeeds.then (h : m.Succeeds env s w fun a s' w' => (f a).Finishes env late s' w' Q') :
    (m >>= f).Finishes env late s w Q' := Finishes.bind h.finishes

theorem Finishes.attempt {Q : Except StoreError α → S → W → Prop}
    (h : m.Finishes env late s w fun a s' w' => Q (.ok a) s' w') :
    m.attempt.Finishes env late s w Q := by
  refine Safe.attempt (Safe.mono h ?_)
  rintro r s' w' - (⟨rfl, hlate⟩ | ⟨a, rfl, ha⟩)
  · exact .inl ⟨rfl, hlate⟩
  · exact .inr ⟨.ok a, rfl, ha⟩

theorem Finishes.within {Q : α → T → W → Prop}
    (h : m.Finishes env late (part t) w fun a s' w' => Q a (put t s') w') :
    (m.within part put).Finishes env late t w Q := Safe.within h

theorem Finishes.succeeds (h : m.Finishes env late s w Q) (hlate : ¬late) : m.Succeeds env s w Q :=
  Safe.mono h fun _ _ _ _ hr => hr.resolve_left fun hwaits => hlate hwaits.2

end Finishes

def Fails (env : Env Req Reply W) (m : StoreM Reply S α) (s : S) (w : W)
    (Q : S → W → Prop) : Prop :=
  m.Safe env (fun _ => True) s w fun r s' w' => (∃ e, r = .error e) ∧ Q s' w'

section Fails

variable {env : Env Req Reply W} {s : S} {w : W} {m : StoreM Reply S α} {Q : S → W → Prop}
variable {f : α → StoreM Reply S β}

theorem Fails.throw (h : Q s w) : (throw e : StoreM Reply S α).Fails env s w Q :=
  ⟨trivial, ⟨e, rfl⟩, h⟩

theorem Fails.mono {Q' : S → W → Prop} (h : m.Fails env s w Q)
    (imp : ∀ s' w', Q s' w' → Q' s' w') : m.Fails env s w Q' :=
  Safe.mono h fun _ _ _ _ hr => ⟨hr.1, imp _ _ hr.2⟩

theorem Fails.bind (h : m.Fails env s w Q) (f : α → StoreM Reply S β) :
    (m >>= f).Fails env s w Q := by
  refine Safe.bind (Safe.mono h ?_)
  rintro _ s' w' - ⟨⟨e, rfl⟩, hQ⟩
  exact ⟨⟨e, rfl⟩, hQ⟩

theorem Succeeds.fails (h : m.Succeeds env s w fun a s' w' => (f a).Fails env s' w' Q) :
    (m >>= f).Fails env s w Q := by
  refine Safe.bind (Safe.mono h ?_)
  rintro _ s' w' - ⟨a, rfl, ha⟩
  exact ha

theorem Reads.andFail (h : m.Reads env s w (Returns P)) (rest : ∀ a, P a → (f a).Fails env s w Q) :
    (m >>= f).Fails env s w Q := by
  refine Succeeds.fails (h.succeeds.mono ?_)
  rintro a _ _ ⟨rfl, rfl, ha⟩
  exact rest a ha

theorem Fails.within {Q : T → W → Prop} (h : m.Fails env (part t) w fun s' w' => Q (put t s') w') :
    (m.within part put).Fails env t w Q := Safe.within h

theorem Fails.attempt {Q : Except StoreError α → S → W → Prop}
    (h : m.Fails env s w fun s' w' => ∀ e, Q (.error e) s' w') :
    m.attempt.Succeeds env s w Q := by
  refine Safe.attempt (Safe.mono h ?_)
  rintro _ s' w' - ⟨⟨e, rfl⟩, hQ⟩
  exact ⟨.error e, rfl, hQ e⟩

end Fails

/-- How a call ends, with the states after it, when every request is answered by `answer`. -/
def exec (answer : (r : Req) → W → Reply r × W) (m : StoreM Reply S α) (s : S) (w : W) :
    (Outcome α × S) × W := (m s).run answer w

section Exec

variable {answer : (r : Req) → W → Reply r × W} {s : S} {w : W}

@[simp] theorem exec_pure (a : α) :
    exec answer (pure a : StoreM Reply S α) s w = ((.ok a, s), w) := rfl

@[simp] theorem exec_get :
    exec answer (get : StoreM Reply S S) s w = ((.ok s, s), w) := rfl

@[simp] theorem exec_modify (f : S → S) :
    exec answer (modify f : StoreM Reply S Unit) s w = ((.ok (), f s), w) := rfl

theorem exec_bind (m : StoreM Reply S α) (f : α → StoreM Reply S β) :
    exec answer (m >>= f) s w = match exec answer m s w with
      | ((.ok a, s'), w') => exec answer (f a) s' w'
      | ((.error e, s'), w') => ((.error e, s'), w')
      | ((.panic, s'), w') => ((.panic, s'), w')
      | ((.waits, s'), w') => ((.waits, s'), w') := by
  simp only [exec, bind, Prog.run_bind]
  rcases (m s).run answer w with ⟨⟨o, s'⟩, w'⟩
  cases o <;> rfl

theorem exec_attempt (m : StoreM Reply S α) :
    exec answer m.attempt s w = match exec answer m s w with
      | ((.ok a, s'), w') => ((.ok (.ok a), s'), w')
      | ((.error e, s'), w') => ((.ok (.error e), s'), w')
      | ((.panic, s'), w') => ((.panic, s'), w')
      | ((.waits, s'), w') => ((.waits, s'), w') := by
  simp only [exec, attempt, Prog.run_bind]
  rcases (m s).run answer w with ⟨⟨o, s'⟩, w'⟩
  cases o <;> rfl

theorem exec_within (part : S → T) (put : S → T → S) (m : StoreM Reply T α) :
    exec answer (m.within part put) s w =
      (((exec answer m (part s) w).1.1, put s (exec answer m (part s) w).1.2),
        (exec answer m (part s) w).2) := by
  simp only [exec, within, Prog.run_bind, Prog.run_ret]

end Exec

end StoreM

/-- The `BlockStore` trait.  `read_at` fills a buffer, so the length of the buffer is passed and its
contents are the result. -/
class BlockStore {Req : Type} (Reply : Req → Type) (S : Type) where
  readAt (offset len : Nat) : StoreM Reply S Bytes
  writeAt (offset : Nat) (data : Bytes) : StoreM Reply S Unit
  capacity (s : S) : Nat
  setCapacity (newCapacity : Nat) : StoreM Reply S Unit
  flush : StoreM Reply S Unit
  blockSize (s : S) : Nat
  chunkSize (s : S) : Nat
  presentChunks : StoreM Reply S (List Nat)
  deleteChunk (index : Nat) : StoreM Reply S Unit

end IscsiS3
