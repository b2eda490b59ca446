import MutantC.Librope.RopeDefs

/-! The blocks of a rope across its operations: edits in place leave the same blocks live, and an
insertion adds those that `alloc` hands out. -/

namespace MutantC.Librope
open CBuffer Iteration SkipList

structure Keeps (r r' : Rope) : Prop where
  brk : r'.brk = r.brk
  live : ∀ p, r'.nodes p = none ↔ r.nodes p = none

structure Grows (r r' : Rope) : Prop where
  brk_le : r.brk ≤ r'.brk
  live : ∀ p, r'.nodes p ≠ none ↔ r.nodes p ≠ none ∨ p ∈ Set.Ico r.brk r'.brk

theorem Keeps.refl (r : Rope) : Keeps r r := ⟨rfl, fun _ => Iff.rfl⟩

theorem Keeps.trans {r r₁ r₂ : Rope} (h : Keeps r r₁) (h' : Keeps r₁ r₂) : Keeps r r₂ :=
  ⟨h'.brk.trans h.brk, fun p => (h'.live p).trans (h.live p)⟩

theorem Keeps.grows {r r' : Rope} (h : Keeps r r') : Grows r r' := by
  refine ⟨h.brk.ge, fun p => ?_⟩
  rw [h.brk, Set.Ico_self, or_iff_left (Set.notMem_empty p)]
  exact not_congr (h.live p)

theorem Grows.trans {r r₁ r₂ : Rope} (h : Grows r r₁) (h' : Grows r₁ r₂) : Grows r r₂ := by
  refine ⟨h.brk_le.trans h'.brk_le, fun p => ?_⟩
  rw [h'.live, h.live, or_assoc, ← Set.Ico_union_Ico_eq_Ico h.brk_le h'.brk_le, Set.mem_union]

section
variable {r r' : Rope} {iter iter' : RopeIter}

theorem setNode_keeps {p : Ptr} {n : RopeNode} (h : r.nodes p = some n) (n' : RopeNode) :
    Keeps r (r.setNode p n') := by
  refine ⟨rfl, fun q => ?_⟩
  show (if q = p then some n' else r.nodes q) = none ↔ _
  split_ifs with hq
  · simp [hq, h]
  · rfl

theorem setNext_keeps {p : Ptr} {i : ℕ} {s : SkipNode} (h : r.setNext p i s = some r') :
    Keeps r r' := by
  obtain ⟨n, -, h⟩ := Option.bind_eq_some_iff.1 h
  split_ifs at h
  obtain rfl := Option.some.inj h
  exact ⟨rfl, fun _ => Iff.rfl⟩

theorem allocNode_grows (env : Env) (r : Rope) (height : ℕ) : Grows r (allocNode env r height).2 := by
  refine ⟨Nat.le_succ r.brk, fun q => ?_⟩
  show (if q = r.brk then some _ else r.nodes q) ≠ none ↔ _ ∨ q ∈ Set.Ico r.brk (r.brk + 1)
  split_ifs with hq
  · simp [hq]
  · rw [or_iff_left fun h => hq (le_antisymm (Nat.le_of_lt_succ h.2) h.1)]

/-! ### Edits in place -/

theorem relink_keeps {lo hi : ℕ} (ptr : ℕ → Option Ptr) (f : ℕ → SkipNode → SkipNode)
    (h : forRange lo hi (fun i r => (ptr i).bind fun p =>
      (r.getNext p i).bind fun s => r.setNext p i (f i s)) r = some r') : Keeps r r' := by
  refine forRange_keeps (fun i t t' hk ht => ?_) (Keeps.refl r) h
  obtain ⟨p, -, ht⟩ := Option.bind_eq_some_iff.1 ht
  obtain ⟨s, -, ht⟩ := Option.bind_eq_some_iff.1 ht
  exact hk.trans (setNext_keeps ht)

theorem updateOffsetList_keeps {k : ℤ} (h : updateOffsetList r iter k = some r') : Keeps r r' := by
  obtain ⟨head, -, h⟩ := Option.bind_eq_some_iff.1 h
  exact relink_keeps _ _ h

theorem lowerLinks_keeps {height removed : ℕ} (h : lowerLinks r iter height removed = some r') :
    Keeps r r' := by
  obtain ⟨head, -, h⟩ := Option.bind_eq_some_iff.1 h
  exact relink_keeps _ _ h

theorem trimNode_keeps {e : Ptr} {offset removed : ℕ} (h : trimNode r e offset removed = some r') :
    Keeps r r' := by
  obtain ⟨node, hnode, h⟩ := Option.bind_eq_some_iff.1 h
  -- both ways to close up the bytes end in the same loop
  dsimp only at h
  split_ifs at h
  all_goals
    obtain ⟨newStr, -, h⟩ := Option.bind_eq_some_iff.1 h
    have hloop := relink_keeps (fun _ => some e) _ h
    exact (setNode_keeps hnode _).trans ⟨hloop.brk, hloop.live⟩

theorem unlinkNode_keeps {e : Ptr} {removed : ℕ} (h : unlinkNode r e iter removed = some r') :
    Keeps r r' := by
  obtain ⟨node, -, h⟩ := Option.bind_eq_some_iff.1 h
  obtain ⟨r₁, hloop, h⟩ := Option.bind_eq_some_iff.1 h
  obtain rfl := Option.some.inj h
  have hkeeps : Keeps r r₁ := by
    refine forRange_keeps (fun i t t' hk ht => ?_) (Keeps.refl r) hloop
    obtain ⟨p, -, ht⟩ := Option.bind_eq_some_iff.1 ht
    obtain ⟨s, -, ht⟩ := Option.bind_eq_some_iff.1 ht
    obtain ⟨q, -, ht⟩ := Option.bind_eq_some_iff.1 ht
    exact hk.trans (setNext_keeps ht)
  exact ⟨hkeeps.brk, hkeeps.live⟩

theorem insertHere_keeps {e : Ptr} {offsetBytes n : ℕ} {str : List Byte}
    (h : insertHere r e iter offsetBytes str n = some r') : Keeps r r' := by
  obtain ⟨node, hnode, h⟩ := Option.bind_eq_some_iff.1 h
  dsimp only at h
  split_ifs at h
  all_goals
    obtain ⟨moved, -, h⟩ := Option.bind_eq_some_iff.1 h
    obtain ⟨newStr, -, h⟩ := Option.bind_eq_some_iff.1 h
    have hupdate := updateOffsetList_keeps h
    exact (setNode_keeps hnode _).trans ⟨hupdate.brk, hupdate.live⟩

/-! ### Insertions -/

theorem growHead_keeps {newHeight : ℕ} (h : growHead newHeight r iter = some (r', iter')) :
    Keeps r r' := by
  obtain ⟨head, -, h⟩ := Option.bind_eq_some_iff.1 h
  refine forRange_keeps (I := fun s => Keeps r s.1) (fun i t t' hk ht => ?_) (Keeps.refl r) h
  obtain ⟨head, hhead, ht⟩ := Option.bind_eq_some_iff.1 ht
  obtain ⟨s, -, ht⟩ := Option.bind_eq_some_iff.1 ht
  obtain ⟨r₁, hset, ht⟩ := Option.bind_eq_some_iff.1 ht
  obtain ⟨iter₁, -, ht⟩ := Option.bind_eq_some_iff.1 ht
  obtain rfl := Option.some.inj ht
  exact (hk.trans (setNode_keeps hhead _)).trans (setNext_keeps hset)

theorem linkLevels_keeps {newNode : Ptr} {newHeight numChars : ℕ}
    (h : linkLevels newNode newHeight numChars r iter = some (r', iter')) : Keeps r r' := by
  refine forRange_keeps (I := fun s => Keeps r s.1) (fun i t t' hk ht => ?_) (Keeps.refl r) h
  obtain ⟨p, -, ht⟩ := Option.bind_eq_some_iff.1 ht
  obtain ⟨prev, -, ht⟩ := Option.bind_eq_some_iff.1 ht
  obtain ⟨r₁, hnew, ht⟩ := Option.bind_eq_some_iff.1 ht
  obtain ⟨r₂, hprev, ht⟩ := Option.bind_eq_some_iff.1 ht
  obtain ⟨iter₁, -, ht⟩ := Option.bind_eq_some_iff.1 ht
  obtain rfl := Option.some.inj ht
  exact (hk.trans (setNext_keeps hnew)).trans (setNext_keeps hprev)

theorem shiftLevels_keeps {newHeight maxHeight numChars : ℕ}
    (h : shiftLevels newHeight maxHeight numChars r iter = some (r', iter')) : Keeps r r' := by
  refine forRange_keeps (I := fun s => Keeps r s.1) (fun i t t' hk ht => ?_) (Keeps.refl r) h
  obtain ⟨p, -, ht⟩ := Option.bind_eq_some_iff.1 ht
  obtain ⟨s, -, ht⟩ := Option.bind_eq_some_iff.1 ht
  obtain ⟨r₁, hset, ht⟩ := Option.bind_eq_some_iff.1 ht
  obtain ⟨iter₁, -, ht⟩ := Option.bind_eq_some_iff.1 ht
  obtain rfl := Option.some.inj ht
  exact hk.trans (setNext_keeps hset)

variable {env : Env}

theorem insertAt_grows {str : List Byte} {numBytes numChars : ℕ}
    (h : insertAt env r iter str numBytes numChars = some (r', iter')) : Grows r r' := by
  obtain ⟨node, hnode, h⟩ := Option.bind_eq_some_iff.1 h
  obtain ⟨newStr, -, h⟩ := Option.bind_eq_some_iff.1 h
  obtain ⟨-, -, h⟩ := Option.bind_eq_some_iff.1 h
  obtain ⟨⟨r₁, iter₁⟩, hgrow, h⟩ := Option.bind_eq_some_iff.1 h
  obtain ⟨⟨r₂, iter₂⟩, hlink, h⟩ := Option.bind_eq_some_iff.1 h
  obtain ⟨head, -, h⟩ := Option.bind_eq_some_iff.1 h
  obtain ⟨⟨r₃, iter₃⟩, hshift, h⟩ := Option.bind_eq_some_iff.1 h
  obtain ⟨rfl, rfl⟩ := Prod.mk.inj (Option.some.inj h)
  -- only the first of these steps hands out a block
  have halloc := allocNode_grows env { r with rands := (randomHeight env.rand r.rands).2 }
    (randomHeight env.rand r.rands).1
  have hrest := ((setNode_keeps hnode _).trans (growHead_keeps hgrow)).trans
    ((linkLevels_keeps hlink).trans (shiftLevels_keeps hshift))
  have hall := halloc.trans hrest.grows
  exact ⟨hall.brk_le, hall.live⟩

theorem insertPieces_grows {fuel : ℕ} {str : List Byte}
    (h : insertPieces env fuel (r, iter) str = some (r', iter')) : Grows r r' := by
  induction fuel generalizing r iter str with
  | zero =>
    cases str with
    | nil =>
      obtain ⟨rfl, rfl⟩ := Prod.mk.inj (Option.some.inj h)
      exact (Keeps.refl r).grows
    | cons b str => exact absurd h (Option.some_ne_none _).symm
  | succ fuel ih =>
    cases str with
    | nil =>
      obtain ⟨rfl, rfl⟩ := Prod.mk.inj (Option.some.inj h)
      exact (Keeps.refl r).grows
    | cons b str =>
      obtain ⟨⟨r₁, iter₁⟩, hinsert, h⟩ := Option.bind_eq_some_iff.1 h
      exact (insertAt_grows hinsert).trans (ih h)

theorem insertSplit_grows {e : Ptr} {offset offsetBytes : ℕ} {str : List Byte}
    (h : insertSplit env r e iter offset offsetBytes str = some r') : Grows r r' := by
  obtain ⟨node, hnode, h⟩ := Option.bind_eq_some_iff.1 h
  obtain ⟨first, -, h⟩ := Option.bind_eq_some_iff.1 h
  dsimp only at h
  split_ifs at h with hend
  · obtain ⟨r₁, hr₁, h⟩ := Option.bind_eq_some_iff.1 h
    obtain rfl := Option.some.inj hr₁
    obtain ⟨⟨r₂, iter₂⟩, hpieces, h⟩ := Option.bind_eq_some_iff.1 h
    obtain rfl := Option.some.inj h
    exact insertPieces_grows hpieces
  · obtain ⟨r₀, hupdate, h⟩ := Option.bind_eq_some_iff.1 h
    obtain ⟨r₁, hr₁, h⟩ := Option.bind_eq_some_iff.1 h
    obtain ⟨⟨r₂, iter₂⟩, hpieces, h⟩ := Option.bind_eq_some_iff.1 h
    obtain ⟨node₂, -, h⟩ := Option.bind_eq_some_iff.1 h
    obtain ⟨⟨r₃, iter₃⟩, hlast, h⟩ := Option.bind_eq_some_iff.1 h
    obtain rfl := Option.some.inj h
    have hcut : Keeps r r₁ := by
      obtain rfl := Option.some.inj hr₁
      have hk := (setNode_keeps hnode _).trans (updateOffsetList_keeps hupdate)
      exact ⟨hk.brk, hk.live⟩
    exact hcut.grows.trans ((insertPieces_grows hpieces).trans (insertAt_grows hlast))

theorem ropeInsert_grows {pos : ℕ} {str : List Byte} {res : RopeResult}
    (h : ropeInsert env r pos str = some (res, r')) : Grows r r' := by
  obtain ⟨⟨e, iter⟩, -, h⟩ := Option.bind_eq_some_iff.1 h
  obtain ⟨node, -, h⟩ := Option.bind_eq_some_iff.1 h
  obtain ⟨first, -, h⟩ := Option.bind_eq_some_iff.1 h
  obtain ⟨-, -, h⟩ := Option.bind_eq_some_iff.1 h
  dsimp only at h
  cases hvalid : bytelenAndCheckUtf8 str with
  | none =>
    rw [hvalid] at h
    obtain ⟨-, rfl⟩ := Prod.mk.inj (Option.some.inj h)
    exact (Keeps.refl r).grows
  | some numInsertedBytes =>
    rw [hvalid] at h
    obtain ⟨spot, -, h⟩ := Option.bind_eq_some_iff.1 h
    by_cases hhere : spot.here = true
    · rw [if_pos hhere] at h
      obtain ⟨r₁, hrun, h⟩ := Option.bind_eq_some_iff.1 h
      obtain ⟨-, rfl⟩ := Prod.mk.inj (Option.some.inj h)
      exact (insertHere_keeps hrun).grows
    · rw [if_neg hhere] at h
      obtain ⟨r₁, hrun, h⟩ := Option.bind_eq_some_iff.1 h
      obtain ⟨-, rfl⟩ := Prod.mk.inj (Option.some.inj h)
      exact insertSplit_grows hrun

end

end MutantC.Librope
