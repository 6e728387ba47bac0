import Mathlib

set_option autoImplicit false

/-! # Programs with a state that may diverge

`Prog σ α` is a program over a state `σ` that returns an `α`, or nothing at all: `none` is a
run that has used up its fuel. A loop is a recursive definition over a fuel argument, and
`Ends f s a s'` says that the family `f` of such programs, run with enough fuel, returns `a`
in the state `s'`.

`Within n f s a s'` bounds the fuel by `n` and adds that no smaller amount gives another result,
so it settles both what a run that returns has returned and that a run returns at all.

`Steps R m` says that a relation `R` between the state before and the state after holds of
every run of `m`; for a reflexive and transitive `R` it is closed under every program construct.
-/

/-- A program over the state `σ`: `none` is divergence. -/
def Prog (σ α : Type) : Type := σ → Option (α × σ)

namespace Prog

variable {σ τ α β : Type}

/-- Sequencing: run `m`, then `f` on its result. -/
protected def bind (m : Prog σ α) (f : α → Prog σ β) : Prog σ β := fun s =>
  match m s with
  | none => none
  | some (a, s') => f a s'

instance : Monad (Prog σ) where
  pure a := fun s => some (a, s)
  bind := Prog.bind

/-- The program that never returns. -/
def diverge : Prog σ α := fun _ => none

/-- The current state. -/
def get : Prog σ σ := fun s => some (s, s)

/-- Change the state. -/
def modify (f : σ → σ) : Prog σ Unit := fun s => some ((), f s)

/-- Run a program on a component of the state, read by `view` and written back by `put`. -/
def zoom (view : σ → τ) (put : τ → σ → σ) (m : Prog τ α) : Prog σ α := fun s =>
  match m (view s) with
  | none => none
  | some (a, t) => some (a, put t s)

/-! ## Running -/

@[simp] theorem pure_run (a : α) (s : σ) : (pure a : Prog σ α) s = some (a, s) := rfl

@[simp] theorem diverge_run (s : σ) : (diverge : Prog σ α) s = none := rfl

@[simp] theorem get_run (s : σ) : (get : Prog σ σ) s = some (s, s) := rfl

@[simp] theorem modify_run (f : σ → σ) (s : σ) : modify f s = some ((), f s) := rfl

/-- A first program that returns hands its result on. -/
theorem bind_run {m : Prog σ α} {f : α → Prog σ β} {s s' : σ} {a : α} (h : m s = some (a, s')) :
    (m >>= f) s = f a s' := by
  show Prog.bind m f s = _
  rw [Prog.bind, h]

@[simp] theorem get_bind (f : σ → Prog σ β) (s : σ) : (get >>= f) s = f s s := rfl

@[simp] theorem modify_bind (g : σ → σ) (f : Unit → Prog σ β) (s : σ) :
    (modify g >>= f) s = f () (g s) := rfl

@[simp] theorem pure_bind_run (a : α) (f : α → Prog σ β) (s : σ) :
    ((pure a : Prog σ α) >>= f) s = f a s := rfl

theorem bind_none {m : Prog σ α} {f : α → Prog σ β} {s : σ} (h : m s = none) :
    (m >>= f) s = none := by
  show Prog.bind m f s = none
  rw [Prog.bind, h]

/-- A run of a sequence is a run of its first part followed by one of its second. -/
theorem bind_eq_some {m : Prog σ α} {f : α → Prog σ β} {s s' : σ} {b : β} :
    (m >>= f) s = some (b, s') ↔ ∃ a t, m s = some (a, t) ∧ f a t = some (b, s') := by
  constructor
  · intro h
    cases hm : m s with
    | none =>
        rw [bind_none hm] at h
        cases h
    | some p =>
        obtain ⟨a, t⟩ := p
        exact ⟨a, t, rfl, (bind_run hm).symm.trans h⟩
  · rintro ⟨a, t, hm, hf⟩
    rw [bind_run hm, hf]

theorem map_eq_some {m : Prog σ α} {g : α → β} {s s' : σ} {b : β} :
    (g <$> m) s = some (b, s') ↔ ∃ a, m s = some (a, s') ∧ g a = b := by
  show (m >>= fun a => pure (g a)) s = some (b, s') ↔ _
  rw [bind_eq_some]
  constructor
  · rintro ⟨a, t, hm, hp⟩
    simp only [pure_run, Option.some.injEq, Prod.mk.injEq] at hp
    exact ⟨a, by rw [hm, hp.2], hp.1⟩
  · rintro ⟨a, hm, hg⟩
    exact ⟨a, s', hm, by rw [pure_run, hg]⟩

theorem zoom_run {view : σ → τ} {put : τ → σ → σ} {m : Prog τ α} {s : σ} {a : α} {t : τ}
    (h : m (view s) = some (a, t)) : zoom view put m s = some (a, put t s) := by
  rw [zoom, h]

theorem zoom_eq_some {view : σ → τ} {put : τ → σ → σ} {m : Prog τ α} {s s' : σ} {a : α} :
    zoom view put m s = some (a, s') ↔ ∃ t, m (view s) = some (a, t) ∧ s' = put t s := by
  unfold zoom
  cases hm : m (view s) with
  | none => simp
  | some p =>
      obtain ⟨b, t⟩ := p
      simp only [Option.some.injEq, Prod.mk.injEq]
      constructor
      · rintro ⟨rfl, rfl⟩
        exact ⟨t, ⟨rfl, rfl⟩, rfl⟩
      · rintro ⟨u, ⟨rfl, rfl⟩, rfl⟩
        exact ⟨rfl, rfl⟩

/-- Sequencing inside a component is sequencing of the zoomed programs. -/
theorem zoom_bind {view : σ → τ} {put : τ → σ → σ} (hview : ∀ t s, view (put t s) = t)
    (hput : ∀ t u s, put t (put u s) = put t s) (m : Prog τ α) (f : α → Prog τ β) :
    zoom view put (m >>= f) = (zoom view put m >>= fun a => zoom view put (f a)) := by
  funext s
  cases hm : m (view s) with
  | none =>
      have hz : zoom view put m s = none := by rw [zoom, hm]
      rw [bind_none hz, zoom, bind_none hm]
  | some p =>
      obtain ⟨a, t⟩ := p
      rw [bind_run (zoom_run hm), zoom, bind_run hm, zoom, hview]
      cases f a t with
      | none => rfl
      | some q =>
          simp only []
          rw [hput]

/-! ## Termination -/

/-- With enough fuel, `f` started in `s` returns `a` and leaves the state `s'`. -/
def Ends (f : Nat → Prog σ α) (s : σ) (a : α) (s' : σ) : Prop :=
  ∃ n, ∀ fuel, n ≤ fuel → f fuel s = some (a, s')

/-- With some amount of fuel, `f` started in `s` returns. -/
def Halts (f : Nat → Prog σ α) (s : σ) : Prop := ∃ fuel r, f fuel s = some r

theorem Ends.unique {f : Nat → Prog σ α} {s s' t : σ} {a b : α} (h : Ends f s a s')
    (h' : Ends f s b t) : a = b ∧ s' = t := by
  obtain ⟨n, hn⟩ := h
  obtain ⟨m, hm⟩ := h'
  have h1 := hn (max n m) (le_max_left n m)
  rw [hm (max n m) (le_max_right n m)] at h1
  cases h1
  exact ⟨rfl, rfl⟩

/-- With fuel `n`, `f` started in `s` returns `a` and leaves `s'`; with less it may diverge. -/
def Within (n : Nat) (f : Nat → Prog σ α) (s : σ) (a : α) (s' : σ) : Prop :=
  ∀ fuel, f fuel s = some (a, s') ∨ (f fuel s = none ∧ fuel < n)

namespace Within

variable {n : Nat} {f g : Nat → Prog σ α} {s s' t : σ} {a b : α}

/-- A loop that returns in its first turn. -/
theorem stop (h0 : f 0 s = none) (hs : ∀ fuel, f (fuel + 1) s = some (a, s')) :
    Within 1 f s a s' := by
  intro fuel
  cases fuel with
  | zero => exact Or.inr ⟨h0, by omega⟩
  | succ fuel => exact Or.inl (hs fuel)

/-- A loop whose first turn leads to a loop within `n`. -/
theorem step (h0 : f 0 s = none) (hs : ∀ fuel, f (fuel + 1) s = g fuel t)
    (hg : Within n g t a s') : Within (n + 1) f s a s' := by
  intro fuel
  cases fuel with
  | zero => exact Or.inr ⟨h0, by omega⟩
  | succ fuel =>
      rcases hg fuel with h | ⟨h, hlt⟩
      · exact Or.inl ((hs fuel).trans h)
      · exact Or.inr ⟨(hs fuel).trans h, by omega⟩

theorem run (h : Within n f s a s') {fuel : Nat} (hn : n ≤ fuel) : f fuel s = some (a, s') := by
  rcases h fuel with h | ⟨_, hlt⟩
  · exact h
  · omega

theorem ends (h : Within n f s a s') : Ends f s a s' := ⟨n, fun _ hn => h.run hn⟩

theorem result (h : Within n f s a s') {fuel : Nat} (hf : f fuel s = some (b, t)) :
    b = a ∧ t = s' := by
  rcases h fuel with h | ⟨hnone, _⟩
  · rw [h] at hf
    cases hf
    exact ⟨rfl, rfl⟩
  · rw [hnone] at hf
    cases hf

end Within

/-! ## Relations that every run keeps -/

/-- `R` relates the states before and after every run of `m`. -/
def Steps (R : σ → σ → Prop) (m : Prog σ α) : Prop :=
  ∀ s a s', m s = some (a, s') → R s s'

section Steps

variable {R : σ → σ → Prop}

theorem Steps.pure (hr : ∀ s, R s s) (a : α) : Steps R (pure a : Prog σ α) := by
  intro s b s' h
  simp only [pure_run, Option.some.injEq, Prod.mk.injEq] at h
  exact h.2 ▸ hr s

theorem Steps.diverge : Steps R (diverge : Prog σ α) := by
  intro s a s' h
  cases h

theorem Steps.get (hr : ∀ s, R s s) : Steps R (get : Prog σ σ) := by
  intro s a s' h
  simp only [get_run, Option.some.injEq, Prod.mk.injEq] at h
  exact h.2 ▸ hr s

theorem Steps.modify {f : σ → σ} (h : ∀ s, R s (f s)) : Steps R (modify f) := by
  intro s a s' hs
  simp only [modify_run, Option.some.injEq, Prod.mk.injEq] at hs
  exact hs.2 ▸ h s

theorem Steps.bind (ht : ∀ s t u, R s t → R t u → R s u) {m : Prog σ α} {f : α → Prog σ β}
    (hm : Steps R m) (hf : ∀ a, Steps R (f a)) : Steps R (m >>= f) := by
  intro s b s' h
  obtain ⟨a, t, h1, h2⟩ := bind_eq_some.mp h
  exact ht s t s' (hm s a t h1) (hf a t b s' h2)

theorem Steps.ite {c : Prop} [Decidable c] {m n : Prog σ α} (hm : Steps R m) (hn : Steps R n) :
    Steps R (if c then m else n) := by
  by_cases hc : c
  · rw [if_pos hc]; exact hm
  · rw [if_neg hc]; exact hn

end Steps

end Prog
