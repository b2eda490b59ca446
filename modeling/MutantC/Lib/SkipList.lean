import Mathlib

/-! Skip lists with spans, as a list of towers and the links that tie them. A tower of height `h`
is seen at the levels below `h` and carries one link at each of them, holding the distance to the
next tower seen there. -/

namespace MutantC.SkipList
variable {ι : Type*}

structure Tower (ι : Type*) where
  id : ι
  height : ℕ
  span : ℕ

structure Link (ι : Type*) where
  skip : ℕ
  next : Option ι

def ids (ts : List (Tower ι)) : List ι := ts.map Tower.id

def spans (ts : List (Tower ι)) : ℕ := (ts.map Tower.span).sum

@[simp] theorem ids_nil : ids ([] : List (Tower ι)) = [] := rfl

@[simp] theorem ids_cons (t : Tower ι) (ts : List (Tower ι)) : ids (t :: ts) = t.id :: ids ts := rfl

@[simp] theorem ids_append (xs ys : List (Tower ι)) : ids (xs ++ ys) = ids xs ++ ids ys :=
  List.map_append

@[simp] theorem spans_nil : spans ([] : List (Tower ι)) = 0 := rfl

@[simp] theorem spans_cons (t : Tower ι) (ts : List (Tower ι)) : spans (t :: ts) = t.span + spans ts := by
  simp [spans]

@[simp] theorem spans_append (xs ys : List (Tower ι)) : spans (xs ++ ys) = spans xs + spans ys := by
  simp [spans]

/-- What a link at level `i` crosses after its own tower, and the tower it then meets. -/
def hop (i : ℕ) : List (Tower ι) → Link ι
  | [] => ⟨0, none⟩
  | t :: ts => if i < t.height then ⟨0, some t.id⟩ else ⟨t.span + (hop i ts).skip, (hop i ts).next⟩

def link (i : ℕ) (t : Tower ι) (rest : List (Tower ι)) : Link ι :=
  ⟨t.span + (hop i rest).skip, (hop i rest).next⟩

def WellLinked (L : ι → ℕ → Link ι) : List (Tower ι) → Prop
  | [] => True
  | t :: rest => (∀ i < t.height, L t.id i = link i t rest) ∧ WellLinked L rest

/-- The last tower of a prefix that is seen at level `i`, with the distance from its start to the
end of the prefix. -/
def pred (i : ℕ) : List (Tower ι) → Option (ℕ × ι)
  | [] => none
  | t :: ts => (pred i ts).or (if i < t.height then some (t.span + spans ts, t.id) else none)

theorem hop_append_of_lower {i : ℕ} {xs : List (Tower ι)} (h : ∀ t ∈ xs, t.height ≤ i)
    (ys : List (Tower ι)) :
    hop i (xs ++ ys) = ⟨spans xs + (hop i ys).skip, (hop i ys).next⟩ := by
  induction xs with
  | nil => simp
  | cons t xs ih =>
    have ht : ¬ i < t.height := Nat.not_lt.2 (h t List.mem_cons_self)
    simp only [List.cons_append, hop, if_neg ht, ih fun u hu => h u (List.mem_cons_of_mem t hu),
      spans_cons, Nat.add_assoc]

theorem hop_append_of_seen {i : ℕ} {xs : List (Tower ι)} (h : ∃ t ∈ xs, i < t.height)
    (ys zs : List (Tower ι)) : hop i (xs ++ ys) = hop i (xs ++ zs) := by
  induction xs with
  | nil => simp at h
  | cons t xs ih =>
    by_cases ht : i < t.height
    · simp only [List.cons_append, hop, if_pos ht]
    · obtain ⟨u, hu, hiu⟩ := h
      have hmem : u ∈ xs := (List.mem_cons.1 hu).resolve_left fun e => ht (e ▸ hiu)
      simp only [List.cons_append, hop, if_neg ht, ih ⟨u, hmem, hiu⟩]

theorem hop_lower {i : ℕ} {xs : List (Tower ι)} (h : ∀ t ∈ xs, t.height ≤ i) :
    hop i xs = ⟨spans xs, none⟩ := by
  simpa [hop] using hop_append_of_lower h []

theorem exists_split_of_hop {i : ℕ} {ts : List (Tower ι)} {p : ι} (h : (hop i ts).next = some p) :
    ∃ mid t rest, ts = mid ++ t :: rest ∧ t.id = p ∧ i < t.height ∧
      (∀ u ∈ mid, u.height ≤ i) ∧ (hop i ts).skip = spans mid := by
  induction ts with
  | nil => simp [hop] at h
  | cons t ts ih =>
    by_cases ht : i < t.height
    · rw [hop, if_pos ht] at h ⊢
      exact ⟨[], t, ts, rfl, Option.some.inj h, ht, by simp, rfl⟩
    · rw [hop, if_neg ht] at h ⊢
      obtain ⟨mid, u, rest, rfl, hid, hu, hlow, hskip⟩ := ih h
      refine ⟨t :: mid, u, rest, rfl, hid, hu, ?_, by simp [hskip]⟩
      intro v hv
      rcases List.mem_cons.1 hv with rfl | hv
      · exact Nat.not_lt.1 ht
      · exact hlow v hv

theorem hop_skip_of_next_none {i : ℕ} {ts : List (Tower ι)} (h : (hop i ts).next = none) :
    (hop i ts).skip = spans ts := by
  induction ts with
  | nil => rfl
  | cons t ts ih =>
    by_cases ht : i < t.height
    · simp [hop, ht] at h
    · rw [hop, if_neg ht] at h ⊢
      simp [ih h]

theorem pred_cons_of_some {i : ℕ} {ts : List (Tower ι)} {l : ℕ × ι} (h : pred i ts = some l)
    (t : Tower ι) : pred i (t :: ts) = some l := by
  rw [pred, h, Option.some_or]

theorem pred_cons_of_none {i : ℕ} {ts : List (Tower ι)} (h : pred i ts = none) (t : Tower ι) :
    pred i (t :: ts) = if i < t.height then some (t.span + spans ts, t.id) else none := by
  rw [pred, h, Option.none_or]

theorem pred_eq_none_iff {i : ℕ} {xs : List (Tower ι)} :
    pred i xs = none ↔ ∀ t ∈ xs, t.height ≤ i := by
  induction xs with
  | nil => simp [pred]
  | cons t xs ih => simp [pred, ih, and_comm]

theorem pred_append_of_some {i : ℕ} {ys : List (Tower ι)} {l : ℕ × ι} (h : pred i ys = some l)
    (xs : List (Tower ι)) : pred i (xs ++ ys) = some l := by
  induction xs with
  | nil => exact h
  | cons t xs ih => simp [pred, ih]

theorem pred_append_of_lower {i : ℕ} {ys : List (Tower ι)} (h : ∀ t ∈ ys, t.height ≤ i)
    (xs : List (Tower ι)) : pred i (xs ++ ys) = (pred i xs).map fun l => (l.1 + spans ys, l.2) := by
  induction xs with
  | nil => simp [pred, pred_eq_none_iff.2 h]
  | cons t xs ih =>
    simp only [List.cons_append, pred, ih, spans_append]
    cases pred i xs with
    | some l => simp
    | none =>
      by_cases ht : i < t.height
      · simp [ht, Nat.add_assoc]
      · simp [ht]

theorem pred_snoc (i : ℕ) (xs : List (Tower ι)) (t : Tower ι) :
    pred i (xs ++ [t]) =
      if i < t.height then some (t.span, t.id) else (pred i xs).map fun l => (l.1 + t.span, l.2) := by
  by_cases ht : i < t.height
  · rw [if_pos ht]
    exact pred_append_of_some (by simp [pred, ht]) xs
  · rw [if_neg ht, pred_append_of_lower (by simpa using ht)]
    simp

theorem pred_snoc_snd (i s : ℕ) (xs : List (Tower ι)) (t : Tower ι) :
    (pred i (xs ++ [{ t with span := s }])).map Prod.snd = (pred i (xs ++ [t])).map Prod.snd := by
  rw [pred_snoc, pred_snoc]
  split_ifs
  · rfl
  · cases pred i xs <;> rfl

theorem pred_isSome {i : ℕ} {xs : List (Tower ι)} (h : ∃ t ∈ xs, i < t.height) :
    ∃ l, pred i xs = some l := by
  rw [← Option.isSome_iff_exists, Option.isSome_iff_ne_none, ne_eq, pred_eq_none_iff]
  push Not
  exact h

theorem exists_tower_of_pred {i : ℕ} {xs : List (Tower ι)} {d : ℕ} {p : ι}
    (h : pred i xs = some (d, p)) : ∃ t ∈ xs, t.id = p ∧ i < t.height := by
  induction xs with
  | nil => simp [pred] at h
  | cons t xs ih =>
    cases hp : pred i xs with
    | some l =>
      rw [pred_cons_of_some hp] at h
      obtain ⟨u, hu, hid⟩ := ih (hp.trans h)
      exact ⟨u, List.mem_cons_of_mem _ hu, hid⟩
    | none =>
      rw [pred_cons_of_none hp] at h
      split_ifs at h with ht
      simp only [Option.some.injEq, Prod.mk.injEq] at h
      exact ⟨t, List.mem_cons_self, h.2, ht⟩

theorem pred_mem {i : ℕ} {xs : List (Tower ι)} {d : ℕ} {p : ι} (h : pred i xs = some (d, p)) :
    p ∈ ids xs := by
  obtain ⟨t, ht, rfl, -⟩ := exists_tower_of_pred h
  exact List.mem_map_of_mem ht

theorem WellLinked.append_right {L : ι → ℕ → Link ι} {xs ys : List (Tower ι)}
    (h : WellLinked L (xs ++ ys)) : WellLinked L ys := by
  induction xs with
  | nil => exact h
  | cons t xs ih => exact ih h.2

theorem WellLinked.congr {L L' : ι → ℕ → Link ι} {ts : List (Tower ι)} (h : WellLinked L ts)
    (hL : ∀ p ∈ ids ts, ∀ i, L' p i = L p i) : WellLinked L' ts := by
  induction ts with
  | nil => trivial
  | cons t ts ih =>
    refine ⟨fun i hi => ?_, ih h.2 fun p hp => hL p (List.mem_cons_of_mem _ hp)⟩
    rw [hL t.id List.mem_cons_self, h.1 i hi]

theorem WellLinked.at {L : ι → ℕ → Link ι} {xs ys : List (Tower ι)} {t : Tower ι}
    (h : WellLinked L (xs ++ t :: ys)) {i : ℕ} (hi : i < t.height) : L t.id i = link i t ys :=
  h.append_right.1 i hi

theorem WellLinked.crossing {L : ι → ℕ → Link ι} {xs ys : List (Tower ι)}
    (h : WellLinked L (xs ++ ys)) {i d : ℕ} {p : ι} (hp : pred i xs = some (d, p)) :
    L p i = ⟨d + (hop i ys).skip, (hop i ys).next⟩ := by
  induction xs with
  | nil => simp [pred] at hp
  | cons t xs ih =>
    cases hxs : pred i xs with
    | some l =>
      rw [pred_cons_of_some hxs] at hp
      exact ih h.2 (hxs.trans hp)
    | none =>
      rw [pred_cons_of_none hxs] at hp
      split_ifs at hp with ht
      simp only [Option.some.injEq, Prod.mk.injEq] at hp
      obtain ⟨rfl, rfl⟩ := hp
      have hlink : L t.id i = link i t (xs ++ ys) := h.1 i ht
      rw [hlink, link, hop_append_of_lower (pred_eq_none_iff.1 hxs), Nat.add_assoc]

/-- Replacing everything after a boundary: only the links that cross the boundary change. -/
theorem WellLinked.splice {L L' : ι → ℕ → Link ι} {xs ys zs : List (Tower ι)}
    (h : WellLinked L (xs ++ ys)) (hnd : (ids xs).Nodup) (hzs : WellLinked L' zs)
    (hcross : ∀ i d p, pred i xs = some (d, p) → L' p i = ⟨d + (hop i zs).skip, (hop i zs).next⟩)
    (hkeep : ∀ i, ∀ p ∈ ids xs, (∀ d, pred i xs ≠ some (d, p)) → L' p i = L p i) :
    WellLinked L' (xs ++ zs) := by
  induction xs with
  | nil => exact hzs
  | cons t xs ih =>
    obtain ⟨hnot, hnd'⟩ := List.nodup_cons.1 hnd
    have hself : ∀ i d, pred i xs ≠ some (d, t.id) := fun i d e => hnot (pred_mem e)
    have hhead : ∀ i < t.height, L' t.id i = link i t (xs ++ zs) := by
      intro i hi
      have hlink : L t.id i = link i t (xs ++ ys) := h.1 i hi
      cases hp : pred i xs with
      | some l =>
        have hseen : ∃ u ∈ xs, i < u.height := by
          by_contra hcon
          push Not at hcon
          simp [pred_eq_none_iff.2 hcon] at hp
        -- a later tower of `xs` ends this link, so it does not see the boundary
        rw [hkeep i t.id List.mem_cons_self, hlink, link, link, hop_append_of_seen hseen ys zs]
        intro d
        rw [pred_cons_of_some hp, ← hp]
        exact hself i d
      | none =>
        -- no later tower does, so this link is the one that crosses it
        have hpred : pred i (t :: xs) = some (t.span + spans xs, t.id) := by
          rw [pred_cons_of_none hp, if_pos hi]
        rw [hcross i _ _ hpred, link, hop_append_of_lower (pred_eq_none_iff.1 hp), Nat.add_assoc]
    refine ⟨hhead, ih h.2 hnd' ?_ ?_⟩
    · intro i d p hp
      exact hcross i d p (pred_cons_of_some hp t)
    · intro i p hp hne
      refine hkeep i p (List.mem_cons_of_mem _ hp) fun d => ?_
      cases hxs : pred i xs with
      | some l =>
        rw [pred_cons_of_some hxs, ← hxs]
        exact hne d
      | none =>
        rw [pred_cons_of_none hxs]
        split_ifs
        · rw [ne_eq, Option.some.injEq, Prod.mk.injEq]
          rintro ⟨-, rfl⟩
          exact hnot hp
        · simp

theorem WellLinked.insert {L L' : ι → ℕ → Link ι} {xs ys : List (Tower ι)} {t : Tower ι}
    (h : WellLinked L (xs ++ ys)) (hnd : (ids xs).Nodup)
    (hpast : ∀ p ∈ ids ys, ∀ i, L' p i = L p i)
    (hseen : ∀ i < t.height, ∃ l, pred i xs = some l)
    (hnew : ∀ i < t.height, ∀ d p, pred i xs = some (d, p) →
      L' t.id i = ⟨t.span + (L p i).skip - d, (L p i).next⟩)
    (hlow : ∀ i < t.height, ∀ d p, pred i xs = some (d, p) → L' p i = ⟨d, some t.id⟩)
    (hhigh : ∀ i, t.height ≤ i → ∀ d p, pred i xs = some (d, p) →
      L' p i = ⟨(L p i).skip + t.span, (L p i).next⟩)
    (hkeep : ∀ i, ∀ p ∈ ids xs, (∀ d, pred i xs ≠ some (d, p)) → L' p i = L p i) :
    WellLinked L' (xs ++ t :: ys) := by
  refine h.splice hnd ⟨fun i hi => ?_, h.append_right.congr hpast⟩ ?_ hkeep
  · obtain ⟨⟨d, p⟩, hp⟩ := hseen i hi
    rw [hnew i hi d p hp, h.crossing hp, link]
    congr 1
    simp only
    omega
  · intro i d p hp
    by_cases hi : i < t.height
    · rw [hlow i hi d p hp, hop, if_pos hi, Nat.add_zero]
    · rw [hhigh i (Nat.not_lt.1 hi) d p hp, h.crossing hp, hop, if_neg hi]
      congr 1
      simp only
      omega

theorem WellLinked.remove {L L' : ι → ℕ → Link ι} {xs ys : List (Tower ι)} {t : Tower ι}
    (h : WellLinked L (xs ++ t :: ys)) (hnd : (ids xs).Nodup)
    (hpast : ∀ p ∈ ids ys, ∀ i, L' p i = L p i)
    (hlow : ∀ i < t.height, ∀ d p, pred i xs = some (d, p) →
      L' p i = ⟨(L p i).skip + ((L t.id i).skip - t.span), (L t.id i).next⟩)
    (hhigh : ∀ i, t.height ≤ i → ∀ d p, pred i xs = some (d, p) →
      L' p i = ⟨(L p i).skip - t.span, (L p i).next⟩)
    (hkeep : ∀ i, ∀ p ∈ ids xs, (∀ d, pred i xs ≠ some (d, p)) → L' p i = L p i) :
    WellLinked L' (xs ++ ys) := by
  refine h.splice hnd (h.append_right.2.congr hpast) ?_ hkeep
  intro i d p hp
  by_cases hi : i < t.height
  · rw [hlow i hi d p hp, h.crossing hp, h.at hi, hop, if_pos hi, link]
    congr 1
    simp only
    omega
  · rw [hhigh i (Nat.not_lt.1 hi) d p hp, h.crossing hp, hop, if_neg hi]
    congr 1
    simp only
    omega

theorem WellLinked.resize {L L' : ι → ℕ → Link ι} {xs ys : List (Tower ι)} {t : Tower ι} {s : ℕ}
    (h : WellLinked L (xs ++ t :: ys)) (hnd : (ids (xs ++ [t])).Nodup)
    (hpast : ∀ p ∈ ids ys, ∀ i, L' p i = L p i)
    (hcross : ∀ i d p, pred i (xs ++ [t]) = some (d, p) →
      L' p i = ⟨(L p i).skip + s - t.span, (L p i).next⟩)
    (hkeep : ∀ i, ∀ p ∈ ids (xs ++ [t]), (∀ d, pred i (xs ++ [t]) ≠ some (d, p)) →
      L' p i = L p i) :
    WellLinked L' (xs ++ { t with span := s } :: ys) := by
  rw [ids_append, List.nodup_append] at hnd
  obtain ⟨hxs, -, hdisj⟩ := hnd
  have hne : ∀ p ∈ ids xs, t.id ≠ p := fun p hp e => hdisj p hp t.id (by simp) e.symm
  have hself : ∀ i < t.height, L' t.id i = ⟨(L t.id i).skip + s - t.span, (L t.id i).next⟩ :=
    fun i hi => hcross i t.span t.id (by rw [pred_snoc, if_pos hi])
  refine h.splice hxs ⟨fun i hi => ?_, h.append_right.2.congr hpast⟩ ?_ ?_
  · rw [hself i hi, h.at hi, link, link]
    congr 1
    simp only
    omega
  · intro i d p hp
    by_cases hi : i < t.height
    · rw [hkeep i p (by simp [pred_mem hp]) ?_, h.crossing hp, hop, if_pos hi, hop, if_pos hi]
      intro e
      rw [pred_snoc, if_pos hi, ne_eq, Option.some.injEq, Prod.mk.injEq]
      exact fun hc => hne p (pred_mem hp) hc.2
    · rw [hcross i (d + t.span) p (by rw [pred_snoc, if_neg hi, hp]; rfl), h.crossing hp, hop,
        if_neg hi, hop, if_neg hi]
      congr 1
      simp only
      omega
  · intro i p hp hcon
    refine hkeep i p (by simp [hp]) fun d => ?_
    rw [pred_snoc]
    split_ifs
    · rw [ne_eq, Option.some.injEq, Prod.mk.injEq]
      exact fun hc => hne p hp hc.2
    · cases hxs' : pred i xs with
      | none => simp
      | some l =>
        rw [Option.map_some, ne_eq, Option.some.injEq, Prod.mk.injEq]
        rintro ⟨-, rfl⟩
        exact hcon l.1 hxs'

/-- Raising the first tower above all others: at each new level its link crosses the whole list. -/
theorem WellLinked.raise {L L' : ι → ℕ → Link ι} {t : Tower ι} {ts : List (Tower ι)} {h h' : ℕ}
    (hL : WellLinked L (t :: ts)) (ht : t.height = h + 1) (hlow : ∀ u ∈ ts, u.height ≤ h)
    (hkeep : ∀ i < t.height, L' t.id i = L t.id i)
    (hnew : ∀ i, t.height ≤ i → i < h' → L' t.id i = L t.id h)
    (hpast : ∀ p ∈ ids ts, ∀ i, L' p i = L p i) :
    WellLinked L' ({ t with height := h' } :: ts) := by
  refine ⟨fun i hi => ?_, hL.2.congr hpast⟩
  by_cases hit : i < t.height
  · exact (hkeep i hit).trans (hL.1 i hit)
  · have htop := hL.1 h (by omega)
    have hlow' : ∀ u ∈ ts, u.height ≤ i := fun u hu => (hlow u hu).trans (by omega)
    have hnew' : L' t.id i = L t.id h := hnew i (Nat.not_lt.1 hit) hi
    rw [hnew', htop, link, link, hop_lower hlow, hop_lower hlow']

/-- The towers up to a distance `o` from the start, the last of them cut off there. -/
def before : List (Tower ι) → ℕ → List (Tower ι)
  | [], _ => []
  | t :: ts, o => if o ≤ t.span then [{ t with span := o }] else t :: before ts (o - t.span)

theorem spans_before {ts : List (Tower ι)} {o : ℕ} (h : o ≤ spans ts) : spans (before ts o) = o := by
  induction ts generalizing o with
  | nil => exact (Nat.le_zero.1 h).symm
  | cons t ts ih =>
    rw [before]
    split_ifs with ho
    · simp
    · rw [spans_cons] at h ⊢
      rw [ih (by omega)]
      omega

theorem before_append {xs : List (Tower ι)} {o : ℕ} (h : spans xs < o) (ys : List (Tower ι)) :
    before (xs ++ ys) o = xs ++ before ys (o - spans xs) := by
  induction xs generalizing o with
  | nil => simp
  | cons t xs ih =>
    rw [spans_cons] at h
    rw [List.cons_append, before, if_neg (by omega), ih (by omega), List.cons_append, spans_cons,
      Nat.sub_sub]

theorem hop_skip_le (i : ℕ) (ts : List (Tower ι)) : (hop i ts).skip ≤ spans ts := by
  induction ts with
  | nil => simp [hop]
  | cons t ts ih =>
    rw [hop, spans_cons]
    split_ifs <;> simp only <;> omega

theorem before_lower {i o : ℕ} {ts : List (Tower ι)} (hpos : 0 < o) (h : o ≤ (hop i ts).skip) :
    ∀ t ∈ before ts o, t.height ≤ i := by
  induction ts generalizing o with
  | nil => simp [before]
  | cons t ts ih =>
    rw [hop] at h
    split_ifs at h with ht
    · exact absurd h (by simp only; omega)
    · rw [before]
      split_ifs with ho
      · simpa using ht
      · intro u hu
        rcases List.mem_cons.1 hu with rfl | hu
        · exact Nat.not_lt.1 ht
        · exact ih (by omega) (by simp only at h; omega) u hu

theorem pred_before {i o : ℕ} {t : Tower ι} {ts : List (Tower ι)} (ht : i < t.height)
    (h : o ≤ (link i t ts).skip) : pred i (before (t :: ts) o) = some (o, t.id) := by
  rw [before]
  split_ifs with ho
  · simp [pred, ht]
  · rw [link] at h
    have hle : o - t.span ≤ (hop i ts).skip := by simp only at h; omega
    have hlow := before_lower (by omega) hle
    rw [pred_cons_of_none (pred_eq_none_iff.2 hlow), if_pos ht,
      spans_before (hle.trans (hop_skip_le i ts)), Nat.add_sub_cancel' (by omega)]

end MutantC.SkipList
