import MutantC.Librope.RopeIter

/-! The loops over levels in closed form. Every loop of the rope that runs over levels touches one
link at each level, so its result is described link by link. -/

namespace MutantC.Librope
open CBuffer Iteration SkipList

def Rope.withNexts (r : Rope) (L : Ptr → ℕ → SkipNode) : Rope := { r with nexts := L }

section Accessors
variable {r : Rope} {L L' : Ptr → ℕ → SkipNode} {p : Ptr} {n : RopeNode} {i : ℕ}

@[simp] theorem withNexts_nodes : (r.withNexts L).nodes = r.nodes := rfl

@[simp] theorem withNexts_nexts : (r.withNexts L).nexts = L := rfl

theorem withNexts_congr (h : ∀ q j, L q j = L' q j) : r.withNexts L = r.withNexts L' := by
  rw [show L = L' from funext fun q => funext (h q)]

theorem withNexts_self (h : ∀ q j, L q j = r.nexts q j) : r.withNexts L = r := by
  rw [withNexts_congr h]
  rfl

theorem getNext_withNexts (h : r.nodes p = some n) (hi : i < n.height) :
    (r.withNexts L).getNext p i = some (L p i) := getNext_eq (r := r.withNexts L) h hi

theorem setNext_withNexts (h : r.nodes p = some n) (hi : i < n.height) (s : SkipNode) :
    (r.withNexts L).setNext p i s =
      some (r.withNexts fun q j => if q = p ∧ j = i then s else L q j) :=
  setNext_eq (r := r.withNexts L) h hi s

end Accessors

theorem forRange_mapLink {r : Rope} {lo hi : ℕ} (hle : lo ≤ hi) (ptr : ℕ → Option Ptr)
    (f : ℕ → SkipNode → SkipNode)
    (hvalid : ∀ i, lo ≤ i → i < hi → ∃ p n, ptr i = some p ∧ r.nodes p = some n ∧ i < n.height) :
    forRange lo hi (fun i r => (ptr i).bind fun p => (r.getNext p i).bind fun s =>
        r.setNext p i (f i s)) r =
      some (r.withNexts fun q j =>
        if lo ≤ j ∧ j < hi ∧ ptr j = some q then f j (r.nexts q j) else r.nexts q j) := by
  have hloop := forRange_eq (b := fun i r => (ptr i).bind fun p =>
      (r.getNext p i).bind fun s => r.setNext p i (f i s))
    (fun k => r.withNexts fun q j =>
      if lo ≤ j ∧ j < k ∧ ptr j = some q then f j (r.nexts q j) else r.nexts q j) hle ?_
  · rwa [withNexts_self (r := r) fun q j => if_neg (by omega)] at hloop
  · intro i hlo hhi
    obtain ⟨p, n, hp, hnode, hn⟩ := hvalid i hlo hhi
    simp only [hp, Option.bind_some, getNext_withNexts hnode hn, setNext_withNexts hnode hn]
    refine congrArg some (withNexts_congr fun q j => ?_)
    by_cases hj : j = i
    · subst hj
      by_cases hq : q = p
      · subst hq
        simp [hp, hlo]
      · have hpq : ptr j ≠ some q := fun e => hq (Option.some.inj (hp.symm.trans e)).symm
        simp [hq, hpq]
    · simp [hj, Nat.le_iff_lt_or_eq]

def IterValid (r : Rope) (iter : RopeIter) (H : ℕ) : Prop :=
  ∀ i < H, ∃ d p n, iter i = ⟨d, some p⟩ ∧ r.nodes p = some n ∧ i < n.height

theorem Layout.iterValid {r : Rope} {H : ℕ} {xs ys : List Leaf} (h : Layout r H (xs ++ ys))
    (hxs : xs ≠ []) {iter : RopeIter} (hit : IterAt iter xs) : IterValid r iter H :=
  fun _ hi => h.iter_valid hxs hit hi

section Loops
variable {r : Rope} {iter : RopeIter} {H : ℕ} {head : RopeNode}

theorem IterValid.next (hit : IterValid r iter H) {lo : ℕ} :
    ∀ i, lo ≤ i → i < H → ∃ p n, (iter i).next = some p ∧ r.nodes p = some n ∧ i < n.height := by
  intro i _ hi
  obtain ⟨d, p, n, hiter, hn⟩ := hit i hi
  exact ⟨p, n, by rw [hiter], hn⟩

theorem updateOffsetList_eq (hhead : r.nodes headPtr = some head) (hH : head.height = H)
    (hit : IterValid r iter H) (δ : ℤ) :
    updateOffsetList r iter δ = some (r.withNexts fun q j =>
      if j < H ∧ (iter j).next = some q then
        ⟨((r.nexts q j).skip + δ).toNat, (r.nexts q j).next⟩
      else r.nexts q j) := by
  subst hH
  have h := forRange_mapLink (Nat.zero_le head.height) (fun i => (iter i).next)
    (fun _ s => { s with skip := (s.skip + δ).toNat }) hit.next
  rw [updateOffsetList, hhead]
  simpa using h

theorem lowerLinks_eq (hhead : r.nodes headPtr = some head) (hH : head.height = H)
    (hit : IterValid r iter H) {height : ℕ} (hle : height ≤ H) (removed : ℕ) :
    lowerLinks r iter height removed = some (r.withNexts fun q j =>
      if height ≤ j ∧ j < H ∧ (iter j).next = some q then
        ⟨(r.nexts q j).skip - removed, (r.nexts q j).next⟩
      else r.nexts q j) := by
  subst hH
  have h := forRange_mapLink hle (fun i => (iter i).next)
    (fun _ s => { s with skip := s.skip - removed }) hit.next
  rw [lowerLinks, hhead]
  simpa using h

theorem IterValid.of_le (hit : IterValid r iter H) {k : ℕ} (hk : k ≤ H) : IterValid r iter k :=
  fun i hi => hit i (hi.trans_le hk)

theorem linkLevels_eq {new : Ptr} {node : RopeNode} (hnew : r.nodes new = some node)
    (hit : IterValid r iter node.height) (hmax : node.height ≤ ropeMaxHeight)
    (hne : ∀ i < node.height, (iter i).next ≠ some new) (c : ℕ) :
    linkLevels new node.height c r iter = some
      (r.withNexts fun q j =>
        if j < node.height then
          if q = new then
            match (iter j).next with
            | some p => ⟨c + (r.nexts p j).skip - (iter j).skip, (r.nexts p j).next⟩
            | none => r.nexts q j
          else if (iter j).next = some q then ⟨(iter j).skip, some new⟩
          else r.nexts q j
        else r.nexts q j,
      fun j => if j < node.height then ⟨c, some new⟩ else iter j) := by
  rw [linkLevels]
  have hloop := forRange_eq (σ := Rope × RopeIter) (fun k =>
      (r.withNexts fun q j =>
        if j < k then
          if q = new then
            match (iter j).next with
            | some p => ⟨c + (r.nexts p j).skip - (iter j).skip, (r.nexts p j).next⟩
            | none => r.nexts q j
          else if (iter j).next = some q then ⟨(iter j).skip, some new⟩
          else r.nexts q j
        else r.nexts q j,
      fun j => if j < k then (⟨c, some new⟩ : SkipNode) else iter j)) (Nat.zero_le node.height)
    (b := fun i s => (s.2 i).next.bind fun p => (s.1.getNext p i).bind fun prev =>
      (s.1.setNext new i ⟨c + prev.skip - (s.2 i).skip, prev.next⟩).bind fun r =>
      (r.setNext p i ⟨(s.2 i).skip, some new⟩).bind fun r =>
      (s.2.set i ⟨c, some new⟩).bind fun iter => some (r, iter)) ?_
  · rw [withNexts_self (r := r) fun q j => if_neg (by omega)] at hloop
    simpa using hloop
  · intro i _ hi
    obtain ⟨d, p, n, hiter, hp, hn⟩ := hit i hi
    -- the two links written at this level belong to different nodes
    have hpn : p ≠ new := fun e => hne i hi (by rw [hiter, e])
    simp only [Nat.lt_irrefl, if_false, hiter, Option.bind_some,
      getNext_withNexts hp hn, setNext_withNexts hnew hi, setNext_withNexts hp hn,
      RopeIter.set_eq (hi.trans_le hmax)]
    refine congrArg some (Prod.ext ?_ ?_)
    · refine withNexts_congr fun q j => ?_
      by_cases hj : j = i
      · subst hj
        by_cases hq : q = p
        · subst hq
          simp [hpn, hiter]
        · by_cases hqn : q = new
          · subst hqn
            simp [hq, hiter]
          · have hne' : (iter j).next ≠ some q := by
              rw [hiter]
              exact fun e => hq (Option.some.inj e).symm
            simp [hq, hqn, hne']
      · simp [hj, Nat.le_iff_lt_or_eq]
    · funext j
      by_cases hj : j = i
      · subst hj
        simp
      · simp [hj, Nat.le_iff_lt_or_eq]

theorem shiftLevels_eq (hit : IterValid r iter H) (hmax : H ≤ ropeMaxHeight) {k : ℕ} (hk : k ≤ H)
    (c : ℕ) :
    shiftLevels k H c r iter = some
      (r.withNexts fun q j =>
        if k ≤ j ∧ j < H ∧ (iter j).next = some q then
          ⟨(r.nexts q j).skip + c, (r.nexts q j).next⟩
        else r.nexts q j,
      fun j => if k ≤ j ∧ j < H then ⟨(iter j).skip + c, (iter j).next⟩ else iter j) := by
  rw [shiftLevels]
  have hloop := forRange_eq (σ := Rope × RopeIter) (fun m =>
      (r.withNexts fun q j =>
        if k ≤ j ∧ j < m ∧ (iter j).next = some q then
          ⟨(r.nexts q j).skip + c, (r.nexts q j).next⟩
        else r.nexts q j,
      fun j => if k ≤ j ∧ j < m then (⟨(iter j).skip + c, (iter j).next⟩ : SkipNode) else iter j)) hk
    (b := fun i s => (s.2 i).next.bind fun p => (s.1.getNext p i).bind fun l =>
      (s.1.setNext p i { l with skip := l.skip + c }).bind fun r =>
      (s.2.set i { s.2 i with skip := (s.2 i).skip + c }).bind fun iter => some (r, iter)) ?_
  · rw [withNexts_self (r := r) fun q j => if_neg (by omega)] at hloop
    rwa [show (fun j => if k ≤ j ∧ j < k then (⟨(iter j).skip + c, (iter j).next⟩ : SkipNode)
      else iter j) = iter from funext fun j => if_neg (by omega)] at hloop
  · intro i hlo hi
    obtain ⟨d, p, n, hiter, hp, hn⟩ := hit i hi
    simp only [Nat.lt_irrefl, false_and, and_false, if_false, hiter,
      Option.bind_some, getNext_withNexts hp hn, setNext_withNexts hp hn,
      RopeIter.set_eq (hi.trans_le hmax)]
    refine congrArg some (Prod.ext ?_ ?_)
    · refine withNexts_congr fun q j => ?_
      by_cases hj : j = i
      · subst hj
        by_cases hq : q = p
        · subst hq
          simp [hiter, hlo]
        · have hne : (iter j).next ≠ some q := by
            rw [hiter]
            exact fun e => hq (Option.some.inj e).symm
          simp [hq, hne]
      · simp [hj, Nat.le_iff_lt_or_eq]
    · funext j
      by_cases hj : j = i
      · subst hj
        simp [hiter, hlo]
      · simp [hj, Nat.le_iff_lt_or_eq]

theorem unlinkLevels_eq {e : Ptr} {node : RopeNode} (he : r.nodes e = some node)
    (hit : IterValid r iter node.height) (removed : ℕ) :
    forRange 0 node.height (fun i r => (iter i).next.bind fun p => (r.getNext e i).bind fun s =>
        (r.getNext p i).bind fun q => r.setNext p i ⟨q.skip + (s.skip - removed), s.next⟩) r =
      some (r.withNexts fun q j =>
        if j < node.height ∧ (iter j).next = some q then
          ⟨(r.nexts q j).skip + ((r.nexts e j).skip - removed), (r.nexts e j).next⟩
        else r.nexts q j) := by
  have hloop := forRange_eq (σ := Rope) (fun m => r.withNexts fun q j =>
      if j < m ∧ (iter j).next = some q then
        ⟨(r.nexts q j).skip + ((r.nexts e j).skip - removed), (r.nexts e j).next⟩
      else r.nexts q j) (Nat.zero_le node.height)
    (b := fun i r => (iter i).next.bind fun p => (r.getNext e i).bind fun s =>
      (r.getNext p i).bind fun q => r.setNext p i ⟨q.skip + (s.skip - removed), s.next⟩) ?_
  · rwa [withNexts_self (r := r) fun q j => if_neg (by omega)] at hloop
  · intro i _ hi
    obtain ⟨d, p, n, hiter, hp, hn⟩ := hit i hi
    simp only [Nat.lt_irrefl, false_and, if_false, hiter, Option.bind_some,
      getNext_withNexts he hi, getNext_withNexts hp hn, setNext_withNexts hp hn]
    refine congrArg some (withNexts_congr fun q j => ?_)
    by_cases hj : j = i
    · subst hj
      by_cases hq : q = p
      · subst hq
        simp [hiter]
      · have hne' : (iter j).next ≠ some q := by
          rw [hiter]
          exact fun e => hq (Option.some.inj e).symm
        simp [hq, hne']
    · simp [hj, Nat.le_iff_lt_or_eq]

def grown (r : Rope) (iter : RopeIter) (head : RopeNode) (m : ℕ) : Rope × RopeIter :=
  ({ r with
    nodes := fun q => if q = headPtr then some { head with height := m } else r.nodes q
    nexts := fun q j =>
      if q = headPtr ∧ head.height ≤ j ∧ j < m then r.nexts headPtr (head.height - 1)
      else r.nexts q j },
  fun j => if head.height ≤ j ∧ j < m then iter (head.height - 1) else iter j)

theorem grown_self (hhead : r.nodes headPtr = some head) : grown r iter head head.height = (r, iter) := by
  have hnodes : (fun q => if q = headPtr then some { head with height := head.height }
      else r.nodes q) = r.nodes := by
    funext q
    split_ifs with hq
    · rw [hq, hhead]
    · rfl
  have hnexts : (fun q j => if q = headPtr ∧ head.height ≤ j ∧ j < head.height then
      r.nexts headPtr (head.height - 1) else r.nexts q j) = r.nexts :=
    funext fun q => funext fun j => if_neg (by omega)
  have hiter : (fun j => if head.height ≤ j ∧ j < head.height then iter (head.height - 1)
      else iter j) = iter := funext fun j => if_neg (by omega)
  rw [grown, hnodes, hnexts, hiter]

def growLevel (m : ℕ) (s : Rope × RopeIter) : Option (Rope × RopeIter) :=
  (s.1.nodes headPtr).bind fun head =>
    ((s.1.setNode headPtr { head with height := head.height + 1 }).getNext headPtr (m - 1)).bind fun l =>
    ((s.1.setNode headPtr { head with height := head.height + 1 }).setNext headPtr m l).bind fun r =>
    (s.2.set m (s.2 (m - 1))).bind fun iter => some (r, iter)

/-- The level below the new one is the topmost old one or a copy of it. -/
theorem growLevel_grown {m : ℕ} (hpos : 0 < head.height) (hlo : head.height ≤ m)
    (hm : m < ropeMaxHeight) : growLevel m (grown r iter head m) = some (grown r iter head (m + 1)) := by
  have hget : ∀ (s : Rope) (n : RopeNode) (i : ℕ), i < n.height →
      (s.setNode headPtr n).getNext headPtr i = some (s.nexts headPtr i) :=
    fun s n i hi => getNext_eq (r := s.setNode headPtr n) (if_pos rfl) hi
  have hset : ∀ (s : Rope) (n : RopeNode) (i : ℕ) (l : SkipNode), i < n.height →
      (s.setNode headPtr n).setNext headPtr i l = some { s.setNode headPtr n with
        nexts := fun q j => if q = headPtr ∧ j = i then l else s.nexts q j } :=
    fun s n i l hi => setNext_eq (r := s.setNode headPtr n) (if_pos rfl) hi l
  have hprev : (if head.height ≤ m - 1 ∧ m - 1 < m then r.nexts headPtr (head.height - 1)
      else r.nexts headPtr (m - 1)) = r.nexts headPtr (head.height - 1) := by
    split_ifs with h
    · rfl
    · rw [show m - 1 = head.height - 1 by omega]
  have hprev' : (if head.height ≤ m - 1 ∧ m - 1 < m then iter (head.height - 1)
      else iter (m - 1)) = iter (head.height - 1) := by
    split_ifs with h
    · rfl
    · rw [show m - 1 = head.height - 1 by omega]
  unfold growLevel grown
  simp only [if_true, Option.bind_some]
  rw [hget _ _ _ (by simp only; omega), Option.bind_some, hset _ _ _ _ (by simp only; omega),
    Option.bind_some, RopeIter.set_eq (by omega), Option.bind_some]
  simp only [true_and, hprev, hprev', Rope.setNode]
  refine congrArg some (Prod.ext ?_ ?_)
  · simp only [Rope.mk.injEq, true_and, and_true]
    refine ⟨funext fun q => by split_ifs <;> rfl, funext fun q => funext fun j => ?_⟩
    by_cases hj : j = m
    · subst hj
      by_cases hq : q = headPtr <;> simp [hq, hlo]
    · simp [hj, Nat.le_iff_lt_or_eq]
  · funext j
    by_cases hj : j = m
    · subst hj
      simp [hlo]
    · simp [hj, Nat.le_iff_lt_or_eq]

variable (iter) in
theorem growHead_eq (hhead : r.nodes headPtr = some head) (hH : head.height = H) (hpos : 0 < H)
    {k : ℕ} (hk : k < ropeMaxHeight) :
    growHead k r iter = some
      ({ r with
        nodes := fun q => if q = headPtr then some { head with height := max H (k + 1) } else r.nodes q
        nexts := fun q j =>
          if q = headPtr ∧ H ≤ j ∧ j < max H (k + 1) then r.nexts headPtr (H - 1)
          else r.nexts q j },
      fun j => if H ≤ j ∧ j < max H (k + 1) then iter (H - 1) else iter j) := by
  subst hH
  change growHead k r iter = some (grown r iter head (max head.height (k + 1)))
  rw [growHead, hhead]
  simp only [Option.bind_eq_bind, Option.bind_some]
  by_cases hle : head.height ≤ k + 1
  · have hloop : forRange head.height (k + 1) growLevel (grown r iter head head.height) = _ :=
      forRange_eq (grown r iter head) hle fun m hlo hm => growLevel_grown hpos hlo (by omega)
    rw [grown_self hhead] at hloop
    rw [Nat.max_eq_right hle]
    exact hloop
  · have hzero : k + 1 - head.height = 0 := by omega
    rw [forRange, hzero, loopFrom, Nat.max_eq_left (by omega), grown_self hhead]

end Loops

end MutantC.Librope
