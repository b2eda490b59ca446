import Mathlib

/-! Handles kept in slots: each is acquired for a slot, stored there, and released once. A table is exact
when the handles not released are just those in the slots they were acquired for. -/

namespace MutantC.Handles

structure Table (κ : Type*) where
  slot : κ → Option ℕ
  acquiredFor : ℕ → Option κ
  next : ℕ
  released : List ℕ

section
variable {κ : Type*} {T : Table κ} {k : κ}

def emptyTable : Table κ := ⟨fun _ => none, fun _ => none, 0, []⟩

/-- Releases the handle in a slot, which may be empty, and leaves the slot as it is. -/
def release (T : Table κ) (k : κ) : Table κ :=
  match T.slot k with
  | none => T
  | some t => { T with released := T.released ++ [t] }

structure Exact (T : Table κ) : Prop where
  held : ∀ k t, T.slot k = some t → T.acquiredFor t = some k ∧ t ∉ T.released
  owned : ∀ t k, T.acquiredFor t = some k → t ∉ T.released → T.slot k = some t
  once : T.released.Nodup
  acquired_lt : ∀ t k, T.acquiredFor t = some k → t < T.next
  released_lt : ∀ t ∈ T.released, t < T.next

theorem exact_emptyTable : Exact (emptyTable : Table κ) :=
  ⟨fun _ _ h => (Option.some_ne_none _ h.symm).elim, fun _ _ h => (Option.some_ne_none _ h.symm).elim,
    List.nodup_nil, fun _ _ h => (Option.some_ne_none _ h.symm).elim, List.forall_mem_nil _⟩

theorem slot_release (T : Table κ) (k : κ) : (release T k).slot = T.slot := by
  unfold release
  cases T.slot k <;> rfl

theorem Exact.lt_next (h : Exact T) {t : ℕ} (ht : T.slot k = some t) : t < T.next :=
  h.acquired_lt t k (h.held k t ht).1

end

section
variable {κ : Type*} [DecidableEq κ]

def acquire (T : Table κ) (k : κ) : Table κ where
  slot := Function.update T.slot k (some T.next)
  acquiredFor := Function.update T.acquiredFor T.next (some k)
  next := T.next + 1
  released := T.released

def clear (T : Table κ) (k : κ) : Table κ := { T with slot := Function.update T.slot k none }

def acquireAll (T : Table κ) (ks : List κ) : Table κ := ks.foldl acquire T

def releaseAll (T : Table κ) (ps : List (κ × κ)) : Table κ :=
  ps.foldl (fun T p => clear (release T p.1) p.2) T

variable {T : Table κ} {k : κ} {ks : List κ}

theorem slot_clear_release (T : Table κ) (p : κ × κ) :
    (clear (release T p.1) p.2).slot = Function.update T.slot p.2 none := by
  rw [clear, slot_release]

/-! ### Acquiring -/

theorem Exact.acquire (h : Exact T) (hk : T.slot k = none) : Exact (acquire T k) := by
  have hfresh : T.acquiredFor T.next = none := by
    by_contra hne
    obtain ⟨k', hk'⟩ := Option.ne_none_iff_exists'.1 hne
    exact lt_irrefl _ (h.acquired_lt _ _ hk')
  constructor
  · intro k' t ht
    change Function.update T.slot k (some T.next) k' = some t at ht
    change Function.update T.acquiredFor T.next (some k) t = some k' ∧ t ∉ T.released
    rcases eq_or_ne k' k with rfl | hne
    · rw [Function.update_self] at ht
      obtain rfl := Option.some.inj ht
      rw [Function.update_self]
      exact ⟨rfl, fun hmem => lt_irrefl _ (h.released_lt _ hmem)⟩
    · rw [Function.update_of_ne hne] at ht
      rw [Function.update_of_ne (h.lt_next ht).ne]
      exact h.held k' t ht
  · intro t k' hacq hrel
    change Function.update T.acquiredFor T.next (some k) t = some k' at hacq
    change Function.update T.slot k (some T.next) k' = some t
    rcases eq_or_ne t T.next with rfl | hne
    · rw [Function.update_self] at hacq
      rw [← Option.some.inj hacq, Function.update_self]
    · rw [Function.update_of_ne hne] at hacq
      have hslot := h.owned t k' hacq hrel
      have hne' : k' ≠ k := by
        rintro rfl
        rw [hk] at hslot
        cases hslot
      rw [Function.update_of_ne hne', hslot]
  · exact h.once
  · intro t k' hacq
    change Function.update T.acquiredFor T.next (some k) t = some k' at hacq
    rcases eq_or_ne t T.next with rfl | hne
    · exact Nat.lt_succ_self _
    · rw [Function.update_of_ne hne] at hacq
      exact Nat.lt_succ_of_lt (h.acquired_lt t k' hacq)
  · exact fun t ht => Nat.lt_succ_of_lt (h.released_lt t ht)

theorem acquireAll_cons (T : Table κ) (k : κ) (ks : List κ) :
    acquireAll T (k :: ks) = acquireAll (acquire T k) ks := rfl

theorem released_acquireAll (T : Table κ) (ks : List κ) :
    (acquireAll T ks).released = T.released := by
  induction ks generalizing T with
  | nil => rfl
  | cons k ks ih => rw [acquireAll_cons, ih]; rfl

theorem slot_acquireAll_of_notMem (hk : k ∉ ks) : (acquireAll T ks).slot k = T.slot k := by
  induction ks generalizing T with
  | nil => rfl
  | cons k' ks ih =>
    obtain ⟨hne, hks⟩ := not_or.1 (mt List.mem_cons.2 hk)
    rw [acquireAll_cons, ih hks]
    exact Function.update_of_ne hne _ _

theorem slot_acquireAll_of_mem (hk : k ∈ ks) :
    ∃ t, (acquireAll T ks).slot k = some t ∧ T.next ≤ t := by
  induction ks generalizing T with
  | nil => cases hk
  | cons k' ks ih =>
    by_cases hks : k ∈ ks
    · obtain ⟨t, ht, hle⟩ := ih (T := acquire T k') hks
      exact ⟨t, ht, Nat.le_of_succ_le hle⟩
    · obtain rfl := (List.mem_cons.1 hk).resolve_right hks
      refine ⟨T.next, ?_, le_rfl⟩
      rw [acquireAll_cons, slot_acquireAll_of_notMem hks]
      exact Function.update_self _ _ _

theorem acquiredFor_acquireAll {t : ℕ} (ht : t < T.next) :
    (acquireAll T ks).acquiredFor t = T.acquiredFor t := by
  induction ks generalizing T with
  | nil => rfl
  | cons k ks ih =>
    rw [acquireAll_cons, ih (T := acquire T k) (Nat.lt_succ_of_lt ht)]
    exact Function.update_of_ne ht.ne _ _

theorem Exact.acquireAll (h : Exact T) (hks : ks.Nodup) (hnone : ∀ k ∈ ks, T.slot k = none) :
    Exact (acquireAll T ks) := by
  induction ks generalizing T with
  | nil => exact h
  | cons k ks ih =>
    obtain ⟨hk, hks'⟩ := List.nodup_cons.1 hks
    rw [acquireAll_cons]
    apply ih (h.acquire (hnone k List.mem_cons_self)) hks'
    intro k' hk'
    have hne : k' ≠ k := fun heq => hk (heq ▸ hk')
    exact (Function.update_of_ne hne _ _).trans (hnone k' (List.mem_cons_of_mem _ hk'))

theorem not_exact_acquireAll (h : Exact T) (hk : k ∈ ks) (hslot : T.slot k ≠ none) :
    ¬ Exact (Handles.acquireAll T ks) := by
  intro h'
  obtain ⟨t, ht⟩ := Option.ne_none_iff_exists'.1 hslot
  obtain ⟨hacq, hrel⟩ := h.held k t ht
  obtain ⟨t', ht', hle⟩ := slot_acquireAll_of_mem (T := T) hk
  have hlost := h'.owned t k ((acquiredFor_acquireAll (h.lt_next ht)).trans hacq)
    (by rwa [released_acquireAll])
  obtain rfl := Option.some.inj (ht'.symm.trans hlost)
  exact absurd (h.lt_next ht) (not_lt.2 hle)

/-! ### Releasing -/

theorem Exact.release_clear (h : Exact T) (k : κ) : Exact (clear (release T k) k) := by
  have hslot := slot_clear_release T (k, k)
  unfold release at hslot ⊢
  cases hk : T.slot k with
  | none =>
    rw [hk] at hslot
    have hsame : clear T k = T := by
      rw [clear, ← hk, Function.update_eq_self]
    simp only
    rwa [hsame]
  | some t =>
    rw [hk] at hslot
    simp only at hslot ⊢
    obtain ⟨hacq, hrel⟩ := h.held k t hk
    constructor
    · intro k' t' ht'
      rw [hslot] at ht'
      have hne : k' ≠ k := by
        rintro rfl
        rw [Function.update_self] at ht'
        cases ht'
      rw [Function.update_of_ne hne] at ht'
      -- what another slot holds was acquired for that slot, so it is not what is released here
      obtain ⟨hacq', hrel'⟩ := h.held k' t' ht'
      refine ⟨hacq', fun hmem => ?_⟩
      rcases List.mem_append.1 hmem with hmem | hmem
      · exact hrel' hmem
      · obtain rfl := List.mem_singleton.1 hmem
        exact hne (Option.some.inj (hacq'.symm.trans hacq))
    · intro t' k' hacq' hrel'
      obtain ⟨hrel₁, hne⟩ := not_or.1 (mt List.mem_append.2 hrel')
      have hslot' := h.owned t' k' hacq' hrel₁
      have hne' : k' ≠ k := by
        rintro rfl
        exact hne (List.mem_singleton.2 (Option.some.inj (hslot'.symm.trans hk)))
      rw [hslot, Function.update_of_ne hne', hslot']
    · exact List.nodup_append.2 ⟨h.once, List.nodup_singleton t, fun a ha b hb heq =>
        hrel (List.mem_singleton.1 hb ▸ heq ▸ ha)⟩
    · exact h.acquired_lt
    · intro t' ht'
      rcases List.mem_append.1 ht' with ht' | ht'
      · exact h.released_lt t' ht'
      · obtain rfl := List.mem_singleton.1 ht'
        exact h.lt_next hk

theorem releaseAll_cons (T : Table κ) (p : κ × κ) (ps : List (κ × κ)) :
    releaseAll T (p :: ps) = releaseAll (clear (release T p.1) p.2) ps := rfl

theorem slot_releaseAll_of_notMem {ps : List (κ × κ)} (hk : k ∉ ps.map Prod.snd) :
    (releaseAll T ps).slot k = T.slot k := by
  induction ps generalizing T with
  | nil => rfl
  | cons p ps ih =>
    obtain ⟨hne, hps⟩ := not_or.1 (mt List.mem_cons.2 hk)
    rw [releaseAll_cons, ih hps, slot_clear_release, Function.update_of_ne hne]

theorem slot_releaseAll_of_mem {ps : List (κ × κ)} (hk : k ∈ ps.map Prod.snd) :
    (releaseAll T ps).slot k = none := by
  induction ps generalizing T with
  | nil => cases hk
  | cons p ps ih =>
    by_cases hps : k ∈ ps.map Prod.snd
    · exact ih hps
    · rw [releaseAll_cons, slot_releaseAll_of_notMem hps, slot_clear_release]
      obtain rfl := (List.mem_cons.1 hk).resolve_right hps
      exact Function.update_self _ _ _

theorem Exact.releaseAll (h : Exact T) {ps : List (κ × κ)} (hps : ∀ p ∈ ps, p.1 = p.2) :
    Exact (releaseAll T ps) := by
  induction ps generalizing T with
  | nil => exact h
  | cons p ps ih =>
    rw [releaseAll_cons, hps p List.mem_cons_self]
    exact ih (h.release_clear p.2) fun q hq => hps q (List.mem_cons_of_mem _ hq)

end

end MutantC.Handles
