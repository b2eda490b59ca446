import Mathlib

/-! Blocks that are handed out in the order of their numbers and given back one by one, and a record
of what had been given back at each moment of a run. -/

namespace MutantC.Ledger

/-- Each block below `next` is either live or given back, and none was given back twice. -/
structure Balanced (live : ℕ → Prop) (next : ℕ) (freed : List ℕ) : Prop where
  nodup : freed.Nodup
  apart : ∀ p ∈ freed, ¬ live p
  handedOut : ∀ p, p < next ↔ p ∈ freed ∨ live p

namespace Balanced
variable {live live' : ℕ → Prop} {next next' : ℕ} {freed : List ℕ}

theorem extend (h : Balanced live next freed) (hle : next ≤ next')
    (hlive : ∀ p, live' p ↔ live p ∨ p ∈ Set.Ico next next') : Balanced live' next' freed := by
  refine ⟨h.nodup, ?_, ?_⟩
  · intro p hp hp'
    have hlt : p < next := (h.handedOut p).2 (Or.inl hp)
    rcases (hlive p).1 hp' with hl | ⟨hge, -⟩
    · exact h.apart p hp hl
    · exact absurd hlt (Nat.not_lt.2 hge)
  · intro p
    rw [hlive, ← or_assoc, ← h.handedOut, Set.mem_Ico]
    omega

theorem release (h : Balanced live next freed) {p : ℕ} (hp : live p)
    (hlive : ∀ q, live' q ↔ live q ∧ q ≠ p) : Balanced live' next (p :: freed) := by
  refine ⟨List.nodup_cons.2 ⟨fun hf => h.apart p hf hp, h.nodup⟩, ?_, ?_⟩
  · intro q hq hq'
    obtain ⟨hl, hne⟩ := (hlive q).1 hq'
    exact h.apart q ((List.mem_cons.1 hq).resolve_left hne) hl
  · intro q
    rw [h.handedOut, hlive, List.mem_cons]
    constructor
    · rintro (hf | hl)
      · exact Or.inl (Or.inr hf)
      · by_cases hne : q = p
        · exact Or.inl (Or.inl hne)
        · exact Or.inr ⟨hl, hne⟩
    · rintro ((rfl | hf) | ⟨hl, -⟩)
      · exact Or.inr hp
      · exact Or.inl hf
      · exact Or.inr hl

theorem perm_range (h : Balanced live next freed) (hdone : ∀ p, ¬ live p) :
    freed.Perm (List.range next) := by
  refine (List.perm_ext_iff_of_nodup h.nodup List.nodup_range).2 fun p => ?_
  rw [List.mem_range, h.handedOut, or_iff_left (hdone p)]

end Balanced

section Record
variable {σ : Type*}

structure Moment (σ : Type*) where
  state : σ
  freed : List ℕ

structure Record (σ : Type*) where
  now : Moment σ
  past : List (Moment σ)
  grows : (now :: past).IsChain fun later earlier => earlier.freed <:+ later.freed

namespace Record

def start (s : σ) : Record σ := ⟨⟨s, []⟩, [], .singleton _⟩

def moments (l : Record σ) : List (Moment σ) := l.now :: l.past

/-- The run goes on to the state `s`, and the block `p`, if any, is given back on the way. -/
def next (l : Record σ) (p : Option ℕ) (s : σ) : Record σ :=
  ⟨⟨s, p.toList ++ l.now.freed⟩, l.moments, .cons_cons (List.suffix_append _ _) l.grows⟩

@[simp] theorem moments_next (l : Record σ) (p : Option ℕ) (s : σ) :
    (l.next p s).moments = ⟨s, p.toList ++ l.now.freed⟩ :: l.moments := rfl

theorem now_mem_moments (l : Record σ) : l.now ∈ l.moments := List.mem_cons_self

theorem pairwise_moments (l : Record σ) :
    l.moments.Pairwise fun later earlier => earlier.freed <:+ later.freed := by
  have htrans : IsTrans (Moment σ) fun later earlier => earlier.freed <:+ later.freed :=
    ⟨fun _ _ _ h₁ h₂ => h₂.trans h₁⟩
  exact l.grows.pairwise

end Record
end Record

end MutantC.Ledger
