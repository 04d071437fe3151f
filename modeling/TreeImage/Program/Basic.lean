set_option autoImplicit false

/-! # Programs

A `Program` over an `Interface` is a finite dialogue: it makes calls one at a time and goes on according
to the replies. What the calls do is not part of it, so the same program can be run by one handler or by
another, alone or in turns with other programs. -/

namespace TreeImage

/-- The calls that programs can make, and what is replied to each. -/
structure Interface where
  Call : Type
  Reply : Call → Type

/-- A dialogue that ends with a result. -/
inductive Program (I : Interface) (α : Type) : Type
  | done (result : α)
  | call (c : I.Call) (next : I.Reply c → Program I α)

/-- How calls are answered out of a state, and what they do to it. -/
abbrev Handler (I : Interface) (σ : Type) := (c : I.Call) → σ → I.Reply c × σ

namespace Program

variable {I J : Interface} {α β γ σ : Type}

/-! ## Composition -/

/-- Go on with the result of a program. -/
def bind : Program I α → (α → Program I β) → Program I β
  | done a, f => f a
  | call c next, f => call c fun r => (next r).bind f

instance : Monad (Program I) where
  pure := done
  bind := bind

/-- Make one call and end with its reply. -/
def perform (c : I.Call) : Program I (I.Reply c) := call c done

@[simp] theorem done_bind (a : α) (f : α → Program I β) : (done a).bind f = f a := rfl

@[simp] theorem call_bind (c : I.Call) (next : I.Reply c → Program I α) (f : α → Program I β) :
    (call c next).bind f = call c fun r => (next r).bind f := rfl

theorem bind_done (p : Program I α) : p.bind done = p := by
  induction p with
  | done a => rfl
  | call c next ih => simp [ih]

theorem bind_assoc (p : Program I α) (f : α → Program I β) (g : β → Program I γ) :
    (p.bind f).bind g = p.bind fun a => (f a).bind g := by
  induction p with
  | done a => rfl
  | call c next ih => simp [ih]

/-! ## Interpretation -/

/-- Replace every call by a program over another interface. -/
def interpret (f : (c : I.Call) → Program J (I.Reply c)) : Program I α → Program J α
  | done a => done a
  | call c next => (f c).bind fun r => (next r).interpret f

/-! ## Running -/

/-- Run a program alone. -/
def run (h : Handler I σ) : Program I α → σ → α × σ
  | done a, s => (a, s)
  | call c next, s => (next (h c s).1).run h (h c s).2

@[simp] theorem run_done (h : Handler I σ) (a : α) (s : σ) : (done a : Program I α).run h s = (a, s) :=
  rfl

@[simp] theorem run_call (h : Handler I σ) (c : I.Call) (next : I.Reply c → Program I α) (s : σ) :
    (call c next).run h s = (next (h c s).1).run h (h c s).2 := rfl

theorem run_bind (h : Handler I σ) (p : Program I α) (f : α → Program I β) (s : σ) :
    (p.bind f).run h s = (f (p.run h s).1).run h (p.run h s).2 := by
  induction p generalizing s with
  | done a => rfl
  | call c next ih => simp [ih]

/-- A program goes on from where its first part ended. -/
theorem run_bind_of_run {h : Handler I σ} {p : Program I α} {a : α} {s s' : σ} (hp : p.run h s = (a, s'))
    (f : α → Program I β) : (p.bind f).run h s = (f a).run h s' := by
  rw [run_bind, hp]

end Program

end TreeImage
