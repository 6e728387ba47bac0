import Mathlib.Logic.Function.Basic

set_option autoImplicit false

/-! # Hierarchies

Nodes in directories, each kept under an identity that stays when the node is renamed. An operation
works in one directory and touches one node at most. `RunOf.elsewhere` is what this means for a whole
run: nothing changes in a directory that no operation of the run works in.

`RunOf.simulates` and `RunOf.refines` are the rules for an implementation.
-/

/-! ## Runs with labels -/

/-- A sequence of steps with their labels. -/
inductive RunOf {σ ℓ : Type} (step : ℓ → σ → σ → Prop) : List ℓ → σ → σ → Prop
  | nil (s : σ) : RunOf step [] s s
  | snoc {ls : List ℓ} {l : ℓ} {s s' s'' : σ} (h : RunOf step ls s s') (hl : step l s' s'') :
      RunOf step (ls ++ [l]) s s''

theorem RunOf.of_concat {σ ℓ : Type} {step : ℓ → σ → σ → Prop} {ls : List ℓ} {l : ℓ} {s s'' : σ}
    (h : RunOf step (ls ++ [l]) s s'') : ∃ s', RunOf step ls s s' ∧ step l s' s'' := by
  generalize hls : ls ++ [l] = ls' at h
  cases h with
  | nil => simp at hls
  | snoc h hl =>
      obtain ⟨rfl, hl'⟩ := List.append_inj' hls rfl
      cases hl'
      exact ⟨_, h, hl⟩

/-- What every step of a run keeps. -/
theorem RunOf.keeps {σ ℓ : Type} {step : ℓ → σ → σ → Prop} (I : σ → Prop) {ls : List ℓ} {s s' : σ}
    (hstep : ∀ l ∈ ls, ∀ s s', step l s s' → I s → I s') (h : RunOf step ls s s') (hI : I s) : I s' := by
  induction h with
  | nil s => exact hI
  | snoc _ hl ih =>
      exact hstep _ (List.mem_append_right _ List.mem_cons_self) _ _ hl
        (ih (fun l hl' => hstep l (List.mem_append_left _ hl')) hI)

/-- A simulation step by step. `I` goes along with the run, `B` against it. -/
theorem RunOf.simulates {σ τ ℓ : Type} {step : ℓ → σ → σ → Prop} {step' : ℓ → τ → τ → Prop}
    (abs : σ → τ) (I B : σ → Prop) {ls : List ℓ} {s s' : σ}
    (hback : ∀ l s s', step l s s' → B s' → B s)
    (hstep : ∀ l s s', step l s s' → I s → B s' → I s' ∧ step' l (abs s) (abs s'))
    (h : RunOf step ls s s') (hI : I s) (hB : B s') :
    I s' ∧ RunOf step' ls (abs s) (abs s') := by
  induction h with
  | nil s => exact ⟨hI, .nil (abs s)⟩
  | snoc _ hl ih =>
      obtain ⟨hI', htrace⟩ := ih hI (hback _ _ _ hl hB)
      obtain ⟨hI'', hl'⟩ := hstep _ _ _ hl hI' hB
      exact ⟨hI'', .snoc htrace hl'⟩

/-- The rule for a relation between the states of two levels. -/
theorem RunOf.refines {σ τ ℓ : Type} {step : ℓ → σ → σ → Prop} {step' : ℓ → τ → τ → Prop}
    (R : σ → τ → Prop) (B : σ → Prop) {ls : List ℓ} {s s' : σ} {t : τ}
    (hback : ∀ l s s', step l s s' → B s' → B s)
    (hstep : ∀ l s s' t, step l s s' → R s t → B s' → ∃ t', R s' t' ∧ step' l t t')
    (h : RunOf step ls s s') (hR : R s t) (hB : B s') : ∃ t', R s' t' ∧ RunOf step' ls t t' := by
  induction h with
  | nil s => exact ⟨t, hR, .nil t⟩
  | snoc _ hl ih =>
      obtain ⟨t', hR', htrace⟩ := ih hR (hback _ _ _ hl hB)
      obtain ⟨t'', hR'', hl'⟩ := hstep _ _ _ t' hl hR' hB
      exact ⟨t'', hR'', .snoc htrace hl'⟩

/-- A node in the directory `parent`, or in the root. -/
structure Hierarchy.Node (ι ν β : Type) where
  parent : Option ι
  name : ν
  isDir : Bool
  contents : List β

/-- The nodes under their identities. The root is not one of them. -/
abbrev Hierarchy (ι ν β : Type) : Type := ι → Option (Hierarchy.Node ι ν β)

namespace Hierarchy

variable {ι ν β : Type}

/-- What an operation is asked to do. -/
inductive Op (ν : Type)
  | rewrite
  | rename (new : ν)
  | remove (isDir : Bool)
  | create (name : ν) (isDir : Bool)

def IsDir (T : Hierarchy ι ν β) : Option ι → Prop
  | none => True
  | some q => ∃ n, T q = some n ∧ n.isDir = true

/-- No node of the directory has the name. -/
def Fresh (T : Hierarchy ι ν β) (o : Option ι) (name : ν) : Prop :=
  ∀ q n, T q = some n → n.parent = o → n.name ≠ name

variable [DecidableEq ι]

/-- One operation in the directory `o`, and whether it reports success. Only an empty directory is
removed, and no name is given twice. -/
inductive Step (T : Hierarchy ι ν β) (o : Option ι) : Op ν → Bool → Hierarchy ι ν β → Prop
  | refused {op : Op ν} : Step T o op false T
  | kept {ok : Bool} : Step T o .rewrite ok T
  | rewritten {ok : Bool} {q : ι} {n : Node ι ν β} (bs : List β) (hq : T q = some n)
      (ho : n.parent = o) (hfile : n.isDir = false) :
      Step T o .rewrite ok (Function.update T q (some { n with contents := bs }))
  | renamed {q : ι} {n : Node ι ν β} {new : ν} (hq : T q = some n) (ho : n.parent = o)
      (hnew : T.Fresh o new) :
      Step T o (.rename new) true (Function.update T q (some { n with name := new }))
  | removed {q : ι} {n : Node ι ν β} (hq : T q = some n) (ho : n.parent = o)
      (hempty : ∀ p m, T p = some m → m.parent ≠ some q) :
      Step T o (.remove n.isDir) true (Function.update T q none)
  | created {q : ι} {name : ν} {isDir : Bool} (hq : T q = none) (hdir : T.IsDir o)
      (hnew : T.Fresh o name) :
      Step T o (.create name isDir) true (Function.update T q (some ⟨o, name, isDir, []⟩))

/-- The steps with their labels: the directory, the operation and its report. -/
def Labelled (l : Option ι × Op ν × Bool) (T T' : Hierarchy ι ν β) : Prop := Step T l.1 l.2.1 l.2.2 T'

variable {T T' : Hierarchy ι ν β} {o p : Option ι}

/-- A node that is changed stays apart from the nodes of another directory. -/
theorem update_elsewhere {q r : ι} {x : Option (Node ι ν β)} {n : Node ι ν β} (hn : n.parent = p)
    (hne : p ≠ o) (hold : ∀ m, T r = some m → m.parent = o) (hnew : ∀ m, x = some m → m.parent = o) :
    Function.update T r x q = some n ↔ T q = some n := by
  by_cases hqr : q = r
  · subst hqr
    rw [Function.update_self]
    constructor
    · intro h
      exact absurd (hn.symm.trans (hnew n h)) hne
    · intro h
      exact absurd (hn.symm.trans (hold n h)) hne
  · rw [Function.update_of_ne hqr]

theorem Step.elsewhere {op : Op ν} {ok : Bool} (h : Step T o op ok T') (hne : p ≠ o) {q : ι}
    {n : Node ι ν β} (hn : n.parent = p) : T' q = some n ↔ T q = some n := by
  have hold : ∀ {r : ι} {k : Node ι ν β}, T r = some k → k.parent = o →
      ∀ m, T r = some m → m.parent = o := by
    intro r k hr hk m hm
    obtain rfl : k = m := Option.some.inj (hr.symm.trans hm)
    exact hk
  cases h with
  | refused => exact Iff.rfl
  | kept => exact Iff.rfl
  | rewritten bs hq ho hfile => exact update_elsewhere hn hne (hold hq ho) fun m hm => by cases hm; exact ho
  | renamed hq ho hnew => exact update_elsewhere hn hne (hold hq ho) fun m hm => by cases hm; exact ho
  | removed hq ho hempty => exact update_elsewhere hn hne (hold hq ho) fun m hm => by cases hm
  | created hq hdir hnew =>
      refine update_elsewhere hn hne (fun m hm => ?_) fun m hm => by cases hm; rfl
      rw [hq] at hm
      cases hm

/-- A run that never works in a directory leaves the nodes of that directory alone. -/
theorem RunOf.elsewhere {ls : List (Option ι × Op ν × Bool)} (h : RunOf Labelled ls T T')
    (hne : ∀ l ∈ ls, l.1 ≠ p) {q : ι} {n : Node ι ν β} (hn : n.parent = p) :
    T' q = some n ↔ T q = some n := by
  induction h with
  | nil => exact Iff.rfl
  | snoc h hl ih =>
      have hlast := hl.elsewhere (Ne.symm (hne _ (by simp))) hn (q := q)
      exact hlast.trans (ih fun l hl => hne l (by simp [hl]))

end Hierarchy
