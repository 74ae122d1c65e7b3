import Mathlib.Logic.Relation
import Mathlib.Tactic.Common

/-! Programs over a state that read an environment and may stop with an error. A program that
stops keeps the state it had reached, as a process does that returns early or is killed. -/

namespace Tracefold.Library

set_option autoImplicit true

open Relation

/-- A program reads an environment `ω`, changes a state `σ` and answers or stops. -/
def Prog (ω σ ε α : Type) : Type := ω → σ → Except ε α × σ

namespace Prog

instance : Monad (Prog ω σ ε) where
  pure a := fun _ s => (.ok a, s)
  bind x f := fun w s =>
    match x w s with
    | (.ok a, s') => f a w s'
    | (.error e, s') => (.error e, s')

/-- The answer of a program. -/
def answer (x : Prog ω σ ε α) (w : ω) (s : σ) : Except ε α := (x w s).1

/-- The state a program leaves, whether it answered or stopped. -/
def final (x : Prog ω σ ε α) (w : ω) (s : σ) : σ := (x w s).2

def get : Prog ω σ ε σ := fun _ s => (.ok s, s)

def ask : Prog ω σ ε ω := fun w s => (.ok w, s)

def modify (f : σ → σ) : Prog ω σ ε Unit := fun _ s => (.ok (), f s)

def throw (e : ε) : Prog ω σ ε α := fun _ s => (.error e, s)

/-- The value of an option, or the error that names what was missing. -/
def orThrow (o : Option α) (e : ε) : Prog ω σ ε α :=
  match o with
  | some a => pure a
  | none => throw e

theorem ok_of_toOption {r : Except ε α} (h : r.toOption = some a) : r = .ok a := by
  cases r with
  | error => cases h
  | ok b =>
    cases h
    rfl

theorem bind_eq_ok {x : Prog ω σ ε α} {f : α → Prog ω σ ε β} {w : ω} {s s'' : σ} {b : β} :
    (x >>= f) w s = (.ok b, s'') ↔ ∃ a s', x w s = (.ok a, s') ∧ f a w s' = (.ok b, s'') := by
  constructor
  · intro h
    rcases hx : x w s with ⟨r, s'⟩
    simp only [Bind.bind, hx] at h
    cases r with
    | error e => cases h
    | ok a => exact ⟨a, s', rfl, h⟩
  · rintro ⟨a, s', hx, hf⟩
    simp only [Bind.bind, hx]
    exact hf

theorem bind_of_error {x : Prog ω σ ε α} {f : α → Prog ω σ ε β} {w : ω} {s s' : σ} {e : ε}
    (h : x w s = (.error e, s')) : (x >>= f) w s = (.error e, s') := by
  simp only [Bind.bind, h]

theorem bind_of_ok {x : Prog ω σ ε α} {f : α → Prog ω σ ε β} {w : ω} {s s' : σ} {a : α}
    (h : x w s = (.ok a, s')) : (x >>= f) w s = f a w s' := by
  simp only [Bind.bind, h]

theorem orThrow_eq_ok {o : Option α} {e : ε} {w : ω} {s s' : σ} {a : α} :
    (orThrow o e : Prog ω σ ε α) w s = (.ok a, s') ↔ o = some a ∧ s = s' := by
  cases o with
  | none => exact ⟨nofun, fun h => nomatch h.1⟩
  | some b =>
    constructor
    · intro h
      cases h
      exact ⟨rfl, rfl⟩
    · rintro ⟨h, rfl⟩
      cases h
      rfl

/-- From `s` the program moves only by steps of `R`, and an answer satisfies `Q`. -/
def Traces (R : ω → σ → σ → Prop) (w : ω) (x : Prog ω σ ε α) (s : σ) (Q : α → σ → Prop) : Prop :=
  ReflTransGen (R w) s (x.final w s) ∧ ∀ a, x.answer w s = .ok a → Q a (x.final w s)

variable {R : ω → σ → σ → Prop} {w : ω} {s : σ}

theorem Traces.steps {x : Prog ω σ ε α} {Q : α → σ → Prop} (h : Traces R w x s Q) :
    ReflTransGen (R w) s (x.final w s) := h.1

theorem Traces.answer {x : Prog ω σ ε α} {Q : α → σ → Prop} (h : Traces R w x s Q)
    (ha : x.answer w s = .ok a) : Q a (x.final w s) := h.2 a ha

theorem Traces.mono {x : Prog ω σ ε α} {P Q : α → σ → Prop} (h : Traces R w x s P)
    (hPQ : ∀ a s', P a s' → Q a s') : Traces R w x s Q :=
  ⟨h.1, fun a ha => hPQ a _ (h.2 a ha)⟩

/-- What the program answers may use that its final state was reached by steps of `R`. -/
theorem Traces.with_steps {x : Prog ω σ ε α} {P Q : α → σ → Prop} (h : Traces R w x s P)
    (hPQ : ∀ a s', ReflTransGen (R w) s s' → P a s' → Q a s') : Traces R w x s Q :=
  ⟨h.1, fun a ha => hPQ a _ h.1 (h.2 a ha)⟩

theorem Traces.of_eq {x : Prog ω σ ε α} {Q : α → σ → Prop} {r : Except ε α × σ} (hx : x w s = r)
    (hs : ReflTransGen (R w) s r.2) (hq : ∀ a, r.1 = .ok a → Q a r.2) : Traces R w x s Q := by
  subst hx
  exact ⟨hs, hq⟩

theorem Traces.with_answer {x : Prog ω σ ε α} {P Q : α → σ → Prop} (h : Traces R w x s P)
    (hPQ : ∀ a s', x.answer w s = .ok a → P a s' → Q a s') : Traces R w x s Q :=
  ⟨h.1, fun a ha => hPQ a _ ha (h.2 a ha)⟩

theorem Traces.weaken {R' : ω → σ → σ → Prop} {x : Prog ω σ ε α} {Q : α → σ → Prop}
    (h : Traces R w x s Q) (hR : ∀ s s', R w s s' → R' w s s') : Traces R' w x s Q :=
  ⟨ReflTransGen.mono hR _ _ h.1, h.2⟩

theorem Traces.pure {Q : α → σ → Prop} (h : Q a s) :
    Traces R w (Pure.pure a : Prog ω σ ε α) s Q := by
  refine ⟨ReflTransGen.refl, fun b hb => ?_⟩
  cases hb
  exact h

theorem Traces.bind {x : Prog ω σ ε α} {f : α → Prog ω σ ε β} {Q : β → σ → Prop}
    (h : Traces R w x s (fun a s' => Traces R w (f a) s' Q)) : Traces R w (x >>= f) s Q := by
  obtain ⟨hs, ha⟩ := h
  rcases hx : x w s with ⟨r, s'⟩
  simp only [Prog.final, Prog.answer, hx] at hs ha
  cases r with
  | error e =>
    have hb : (x >>= f) w s = (.error e, s') := by
      simp only [Bind.bind, hx]
    refine ⟨by simpa only [Prog.final, hb] using hs, fun b hb' => ?_⟩
    simp only [Prog.answer, hb] at hb'
    cases hb'
  | ok a =>
    obtain ⟨hs', hq⟩ := ha a rfl
    have hb : (x >>= f) w s = f a w s' := by
      simp only [Bind.bind, hx]
    refine ⟨?_, fun b hb' => ?_⟩
    · simp only [Prog.final, hb]
      exact hs.trans hs'
    · simp only [Prog.final, Prog.answer, hb] at hb' ⊢
      exact hq b hb'

theorem Traces.get {Q : σ → σ → Prop} (h : Q s s) :
    Traces R w (Prog.get : Prog ω σ ε σ) s Q := by
  refine ⟨ReflTransGen.refl, fun b hb => ?_⟩
  cases hb
  exact h

theorem Traces.ask {Q : ω → σ → Prop} (h : Q w s) :
    Traces R w (Prog.ask : Prog ω σ ε ω) s Q := by
  refine ⟨ReflTransGen.refl, fun b hb => ?_⟩
  cases hb
  exact h

theorem Traces.throw {Q : α → σ → Prop} : Traces R w (Prog.throw e : Prog ω σ ε α) s Q :=
  ⟨ReflTransGen.refl, fun _ hb => nomatch hb⟩

theorem Traces.modify {f : σ → σ} {Q : Unit → σ → Prop} (hR : R w s (f s)) (h : Q () (f s)) :
    Traces R w (Prog.modify f : Prog ω σ ε Unit) s Q :=
  ⟨ReflTransGen.single hR, fun _ _ => h⟩

theorem Traces.orThrow {o : Option α} {Q : α → σ → Prop} (h : ∀ a, o = some a → Q a s) :
    Traces R w (Prog.orThrow o e : Prog ω σ ε α) s Q := by
  cases o with
  | none => exact Traces.throw
  | some a => exact Traces.pure (h a rfl)

theorem Traces.ite {c : Prop} [Decidable c] {x y : Prog ω σ ε α} {Q : α → σ → Prop}
    (ht : c → Traces R w x s Q) (he : ¬ c → Traces R w y s Q) :
    Traces R w (if c then x else y) s Q := by
  by_cases hc : c
  · rw [if_pos hc]
    exact ht hc
  · rw [if_neg hc]
    exact he hc

/-- From `s` the program answers with `Q`, or stops with `E` of the state it leaves. -/
def Ends (w : ω) (x : Prog ω σ ε α) (s : σ) (E : σ → Prop) (Q : α → σ → Prop) : Prop :=
  match x w s with
  | (.ok a, s') => Q a s'
  | (.error _, s') => E s'

variable {E : σ → Prop}

theorem Ends.pure {Q : α → σ → Prop} (h : Q a s) :
    Ends w (Pure.pure a : Prog ω σ ε α) s E Q := h

theorem Ends.throw {Q : α → σ → Prop} (h : E s) : Ends w (Prog.throw e : Prog ω σ ε α) s E Q := h

theorem Ends.get {Q : σ → σ → Prop} (h : Q s s) : Ends w (Prog.get : Prog ω σ ε σ) s E Q := h

theorem Ends.ask {Q : ω → σ → Prop} (h : Q w s) : Ends w (Prog.ask : Prog ω σ ε ω) s E Q := h

theorem Ends.modify {f : σ → σ} {Q : Unit → σ → Prop} (h : Q () (f s)) :
    Ends w (Prog.modify f : Prog ω σ ε Unit) s E Q := h

theorem Ends.of_eq {x : Prog ω σ ε α} {Q : α → σ → Prop} {s' : σ} (hx : x w s = (.ok a, s'))
    (h : Q a s') : Ends w x s E Q := by
  rw [Ends, hx]
  exact h

/-- A program seen as one step: its answer and the state it leaves. -/
theorem Ends.of_outcome {x : Prog ω σ ε α} {Q : α → σ → Prop}
    (hstop : ∀ e, x.answer w s = .error e → E (x.final w s))
    (h : ∀ a, x.answer w s = .ok a → Q a (x.final w s)) : Ends w x s E Q := by
  rcases hx : x w s with ⟨r, s'⟩
  simp only [Prog.answer, Prog.final, hx] at hstop h
  rw [Ends, hx]
  cases r with
  | error e => exact hstop e rfl
  | ok a => exact h a rfl

theorem Ends.bind {x : Prog ω σ ε α} {f : α → Prog ω σ ε β} {Q : β → σ → Prop}
    (h : Ends w x s E fun a s' => Ends w (f a) s' E Q) : Ends w (x >>= f) s E Q := by
  rcases hx : x w s with ⟨r, s'⟩
  rw [Ends, hx] at h
  cases r with
  | error e =>
    have hb : (x >>= f) w s = (.error e, s') := by
      simp only [Bind.bind, hx]
    rw [Ends, hb]
    exact h
  | ok a =>
    have hb : (x >>= f) w s = f a w s' := by
      simp only [Bind.bind, hx]
    rw [Ends, hb]
    exact h

theorem Ends.mono {x : Prog ω σ ε α} {P Q : α → σ → Prop} (h : Ends w x s E P)
    (hPQ : ∀ a s', P a s' → Q a s') : Ends w x s E Q := by
  rw [Ends] at h ⊢
  split at h
  next a s' heq => exact hPQ a s' h
  next => exact h

theorem Ends.weaken {E' : σ → Prop} {x : Prog ω σ ε α} {P Q : α → σ → Prop} (h : Ends w x s E P)
    (hE : ∀ s', E s' → E' s') (hPQ : ∀ a s', P a s' → Q a s') : Ends w x s E' Q := by
  rw [Ends] at h ⊢
  split at h
  next a s' heq => exact hPQ a s' h
  next s' heq => exact hE s' h

theorem Ends.orThrow {o : Option α} {Q : α → σ → Prop} (hnone : o = none → E s)
    (h : ∀ a, o = some a → Q a s) : Ends w (Prog.orThrow o e : Prog ω σ ε α) s E Q := by
  cases o with
  | none => exact hnone rfl
  | some a => exact h a rfl

theorem Ends.ite {c : Prop} [Decidable c] {x y : Prog ω σ ε α} {Q : α → σ → Prop}
    (ht : c → Ends w x s E Q) (he : ¬ c → Ends w y s E Q) :
    Ends w (if c then x else y) s E Q := by
  by_cases hc : c
  · rw [if_pos hc]
    exact ht hc
  · rw [if_neg hc]
    exact he hc

/-- Whether it answered or stopped, the program leaves a state with `E`. -/
theorem Ends.final {x : Prog ω σ ε α} (h : Ends w x s E fun _ s' => E s') : E (x.final w s) := by
  rw [Ends] at h
  rw [Prog.final]
  split at h
  next heq => rw [heq]; exact h
  next heq => rw [heq]; exact h

/-- Wherever it is run, the program leaves a state that is `T` of the one it found. -/
def Keeps (T : σ → σ → Prop) (x : Prog ω σ ε α) : Prop := ∀ w s, T s (x.final w s)

variable {T : σ → σ → Prop}

theorem Keeps.still {x : Prog ω σ ε α} (hrefl : ∀ s, T s s) (h : ∀ w s, x.final w s = s) :
    Keeps T x := by
  intro w s
  rw [h w s]
  exact hrefl s

theorem Keeps.modify {f : σ → σ} (h : ∀ s, T s (f s)) :
    Keeps T (Prog.modify f : Prog ω σ ε Unit) := fun _ s => h s

theorem Keeps.bind {x : Prog ω σ ε α} {f : α → Prog ω σ ε β}
    (htrans : ∀ {a b c}, T a b → T b c → T a c) (hx : Keeps T x) (hf : ∀ a, Keeps T (f a)) :
    Keeps T (x >>= f) := by
  intro w s
  have hfirst := hx w s
  rcases hrun : x w s with ⟨r, s'⟩
  rw [Prog.final, hrun] at hfirst
  cases r with
  | error e =>
    have hb : (x >>= f) w s = (.error e, s') := by
      simp only [Bind.bind, hrun]
    rw [Prog.final, hb]
    exact hfirst
  | ok a =>
    have hb : (x >>= f) w s = f a w s' := by
      simp only [Bind.bind, hrun]
    rw [Prog.final, hb]
    exact htrans hfirst (hf a w s')

theorem Keeps.ends {x : Prog ω σ ε α} {Q : α → σ → Prop} (hx : Keeps T x)
    (hstop : ∀ s', T s s' → E s') (h : ∀ a s', T s s' → Q a s') : Ends w x s E Q :=
  .of_outcome (fun _ _ => hstop _ (hx w s)) fun a _ => h a _ (hx w s)

end Prog

end Tracefold.Library
