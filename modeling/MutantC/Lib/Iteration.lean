import Mathlib

/-! Counted loops and runs over a step that may fail. A loop is described by the state it is in
before each index; a run is described by what its states satisfy and what its steps meet. -/

namespace MutantC.Iteration

theorem guard_bind {β : Type*} {p : Prop} [Decidable p] (h : p) (f : Unit → Option β) :
    (guard p : Option Unit).bind f = f () := by
  rw [guard, if_pos h]
  rfl

section Loop
variable {σ : Type*}

/-- `for (i = lo; i < lo + n; i++)`, stopping at the first failure. -/
def loopFrom (body : ℕ → σ → Option σ) : ℕ → ℕ → σ → Option σ
  | _, 0, s => some s
  | i, n + 1, s => (body i s).bind (loopFrom body (i + 1) n)

def forRange (lo hi : ℕ) (body : ℕ → σ → Option σ) (s : σ) : Option σ :=
  loopFrom body lo (hi - lo) s

theorem loopFrom_eq {b : ℕ → σ → Option σ} (f : ℕ → σ) (n : ℕ) (lo : ℕ)
    (hstep : ∀ i, lo ≤ i → i < lo + n → b i (f i) = some (f (i + 1))) :
    loopFrom b lo n (f lo) = some (f (lo + n)) := by
  induction n generalizing lo with
  | zero => rfl
  | succ n ih =>
    rw [loopFrom, hstep lo le_rfl (by omega), Option.bind_some,
      ih (lo + 1) fun i h₁ h₂ => hstep i (by omega) (by omega)]
    congr 2
    omega

theorem forRange_eq {b : ℕ → σ → Option σ} {lo hi : ℕ} (f : ℕ → σ) (hle : lo ≤ hi)
    (hstep : ∀ i, lo ≤ i → i < hi → b i (f i) = some (f (i + 1))) :
    forRange lo hi b (f lo) = some (f hi) := by
  have h := loopFrom_eq f (hi - lo) lo fun i h₁ h₂ => hstep i h₁ (by omega)
  rwa [Nat.add_sub_cancel' hle] at h

/-- What every round of a loop keeps, the loop keeps. -/
theorem forRange_keeps {I : σ → Prop} {b : ℕ → σ → Option σ} {lo hi : ℕ} {s s' : σ}
    (hstep : ∀ i t t', I t → b i t = some t' → I t') (hs : I s) (h : forRange lo hi b s = some s') :
    I s' := by
  rw [forRange] at h
  generalize hi - lo = n at h
  induction n generalizing lo s with
  | zero =>
    obtain rfl := Option.some.inj h
    exact hs
  | succ n ih =>
    obtain ⟨t, ht, hrest⟩ := Option.bind_eq_some_iff.1 h
    exact ih (hstep lo s t hs ht) hrest

end Loop

section Run
variable {σ α : Type*} (step : σ → α → Option σ)

def run : σ → List α → Option σ
  | s, [] => some s
  | s, a :: as => (step s a).bind fun s' => run s' as

/-- No step of the run fails and `P` holds in every state of it, first and last included. -/
def Along (P : σ → Prop) : σ → List α → Prop
  | s, [] => P s
  | s, a :: as => P s ∧ ∃ s', step s a = some s' ∧ Along P s' as

/-- Every step the run takes is taken from a state and with an input that `C` allows. -/
def Meets (C : σ → α → Prop) : σ → List α → Prop
  | _, [] => True
  | s, a :: as => C s a ∧ ∀ s', step s a = some s' → Meets C s' as

variable {step}

theorem run_append (s : σ) (as bs : List α) :
    run step s (as ++ bs) = (run step s as).bind fun s' => run step s' bs := by
  induction as generalizing s with
  | nil => rfl
  | cons a as ih =>
    simp only [List.cons_append, run, Option.bind_assoc]
    exact congrArg _ (funext fun s' => ih s')

theorem Along.head {P : σ → Prop} {s : σ} {as : List α} (h : Along step P s as) : P s := by
  cases as with
  | nil => exact h
  | cons a as => exact h.1

theorem Along.run {P : σ → Prop} {s : σ} {as : List α} (h : Along step P s as) :
    ∃ s', Iteration.run step s as = some s' ∧ P s' := by
  induction as generalizing s with
  | nil => exact ⟨s, rfl, h⟩
  | cons a as ih =>
    obtain ⟨-, s', hs, hrest⟩ := h
    obtain ⟨t, ht, hp⟩ := ih hrest
    exact ⟨t, by rw [Iteration.run, hs, Option.bind_some, ht], hp⟩

/-- An invariant that every possible step keeps, and that gives `P`, gives it along a possible run. -/
theorem along_of_meets {I P : σ → Prop} {D : σ → α → Prop}
    (hstep : ∀ s a, I s → D s a → ∃ s', step s a = some s' ∧ I s') (himp : ∀ s, I s → P s)
    {s : σ} (hi : I s) {as : List α} (hd : Meets step D s as) : Along step P s as := by
  induction as generalizing s with
  | nil => exact himp s hi
  | cons a as ih =>
    obtain ⟨hda, hdas⟩ := hd
    obtain ⟨s', hs, hi'⟩ := hstep s a hi hda
    exact ⟨himp s hi, s', hs, ih hi' (hdas s' hs)⟩

/-- Along a run of possible steps: where a good step from a good state is exactly one that `C` allows,
`P` holds along it exactly when every step of it is allowed. -/
theorem along_iff_meets_of {I P : σ → Prop} {C D : σ → α → Prop}
    (hgood : ∀ s a, I s → P s → D s a → ((∃ s', step s a = some s' ∧ P s') ↔ C s a))
    (hinv : ∀ s a s', I s → P s → step s a = some s' → P s' → I s')
    {s : σ} (hi : I s) (hp : P s) {as : List α} (hd : Meets step D s as) :
    Along step P s as ↔ Meets step C s as := by
  induction as generalizing s with
  | nil => exact ⟨fun _ => trivial, fun _ => hp⟩
  | cons a as ih =>
    obtain ⟨hda, hdas⟩ := hd
    constructor
    · rintro ⟨-, s', hs, hrest⟩
      refine ⟨(hgood s a hi hp hda).1 ⟨s', hs, hrest.head⟩, fun t ht => ?_⟩
      obtain rfl : s' = t := Option.some.inj (hs.symm.trans ht)
      exact (ih (hinv s a s' hi hp hs hrest.head) hrest.head (hdas s' hs)).1 hrest
    · rintro ⟨hc, hrest⟩
      obtain ⟨s', hs, hp'⟩ := (hgood s a hi hp hda).2 hc
      exact ⟨hp, s', hs, (ih (hinv s a s' hi hp hs hp') hp' (hdas s' hs)).2 (hrest s' hs)⟩

theorem meets_of_forall {C : α → Prop} {as : List α} (h : ∀ a ∈ as, C a) (s : σ) :
    Meets step (fun _ a => C a) s as := by
  induction as generalizing s with
  | nil => trivial
  | cons a as ih =>
    obtain ⟨ha, has⟩ := List.forall_mem_cons.1 h
    exact ⟨ha, fun s' _ => ih has s'⟩

theorem meets_true (s : σ) (as : List α) : Meets step (fun _ _ => True) s as :=
  meets_of_forall (fun _ _ => trivial) s

theorem exists_run {I : σ → Prop} {C : α → Prop}
    (hstep : ∀ s a, I s → C a → ∃ s', step s a = some s' ∧ I s') {s : σ} (hi : I s) {as : List α}
    (h : ∀ a ∈ as, C a) : ∃ s', Iteration.run step s as = some s' ∧ I s' :=
  (along_of_meets hstep (fun _ hi => hi) hi (meets_of_forall h s)).run

theorem along_iff_meets {I P : σ → Prop} {C : σ → α → Prop}
    (hgood : ∀ s a, I s → P s → ((∃ s', step s a = some s' ∧ P s') ↔ C s a))
    (hinv : ∀ s a s', I s → P s → step s a = some s' → P s' → I s')
    {s : σ} (hi : I s) (hp : P s) (as : List α) :
    Along step P s as ↔ Meets step C s as :=
  along_iff_meets_of (fun s a hi hp _ => hgood s a hi hp) hinv hi hp (meets_true s as)

end Run

section Rel
variable {σ τ υ ω α : Type*} {R : σ → τ → Prop}

theorem rel_some {s : σ} {y : Option τ} (h : Option.Rel R (some s) y) : ∃ t, y = some t ∧ R s t := by
  cases h with
  | some hst => exact ⟨_, rfl, hst⟩

theorem rel_none {y : Option τ} (h : Option.Rel R none y) : y = none := by
  cases h with
  | none => rfl

theorem rel_map {S : υ → ω → Prop} {f : σ → υ} {g : τ → ω} (hfg : ∀ s t, R s t → S (f s) (g t))
    {x : Option σ} {y : Option τ} (h : Option.Rel R x y) : Option.Rel S (x.map f) (y.map g) := by
  cases h with
  | some hst => exact Option.Rel.some (hfg _ _ hst)
  | none => exact Option.Rel.none

/-- Steps that keep two machines related, and fail together, make related runs. -/
theorem rel_run {step : σ → α → Option σ} {step' : τ → α → Option τ}
    (hstep : ∀ s t a, R s t → Option.Rel R (step s a) (step' t a)) {s : σ} {t : τ} (h : R s t) (as : List α) :
    Option.Rel R (run step s as) (run step' t as) := by
  induction as generalizing s t with
  | nil => exact Option.Rel.some h
  | cons a as ih =>
    have hrel := hstep s t a h
    rw [run, run]
    cases hs : step s a with
    | none =>
      rw [hs] at hrel
      rw [rel_none hrel]
      exact Option.Rel.none
    | some s' =>
      rw [hs] at hrel
      obtain ⟨t', ht, h'⟩ := rel_some hrel
      rw [ht]
      exact ih h'

end Rel

end MutantC.Iteration
