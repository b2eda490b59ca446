import MutantC.Librope.RopeInsert

/-! Insertion of a string: into the node that holds the position, into the node after it, or into
new nodes between the two halves of a split node. -/

namespace MutantC.Librope
open CBuffer Iteration SkipList

def PointsAt (iter : RopeIter) (xs : List Leaf) : Prop :=
  ∀ i p, (pred i (towers xs)).map Prod.snd = some p → (iter i).next = some p

theorem IterAt.pointsAt {iter : RopeIter} {xs : List Leaf} (h : IterAt iter xs) :
    PointsAt iter xs := by
  intro i p hp
  obtain ⟨⟨d, q⟩, hd, rfl⟩ := Option.map_eq_some_iff.1 hp
  rw [h i d q hd]

theorem PointsAt.resize {iter : RopeIter} {xs : List Leaf} {l l' : Leaf}
    (h : PointsAt iter (xs ++ [l])) (haddr : l'.addr = l.addr) (hheight : l'.height = l.height) :
    PointsAt iter (xs ++ [l']) := by
  intro i p hp
  refine h i p (Eq.trans ?_ hp)
  have htower : l.tower = { l'.tower with span := l.chars.length } := by
    simp [Leaf.tower, haddr, hheight]
  rw [towers_append, towers_append, towers_cons, towers_cons, towers_nil, htower, pred_snoc_snd]

theorem PointsAt.valid {r : Rope} {H : ℕ} {xs ys : List Leaf} {iter : RopeIter}
    (h : PointsAt iter xs) (hr : Layout r H (xs ++ ys)) (hxs : xs ≠ []) : IterValid r iter H := by
  intro i hi
  obtain ⟨d, p, hp⟩ := (hr.rooted.of_append hxs).pred hi
  obtain ⟨t, ht, rfl, hit⟩ := exists_tower_of_pred hp
  obtain ⟨l, hl, rfl⟩ := List.mem_map.1 ht
  refine ⟨(iter i).skip, l.addr, l.node, ?_, hr.live l (List.mem_append_left ys hl), hit⟩
  have hnext : (iter i).next = some l.addr := h i _ (by rw [hp]; rfl)
  rw [← hnext]

theorem IterValid.setNode {r : Rope} {iter : RopeIter} {H : ℕ} (h : IterValid r iter H) {p : Ptr}
    {n m : RopeNode} (hp : r.nodes p = some n) (hn : m.height = n.height) :
    IterValid (r.setNode p m) iter H := by
  intro i hi
  obtain ⟨d, q, k, hiter, hq, hk⟩ := h i hi
  by_cases hqp : q = p
  · subst hqp
    obtain rfl := Option.some.inj (hp.symm.trans hq)
    exact ⟨d, q, m, hiter, if_pos rfl, hn ▸ hk⟩
  · exact ⟨d, q, k, hiter, (if_neg hqp).trans hq, hk⟩

theorem Layout.head_setNode {r : Rope} {H : ℕ} {ls : List Leaf} (hr : Layout r H ls) {p : Ptr}
    {n m : RopeNode} (hp : r.nodes p = some n) (hn : m.height = n.height) :
    ∃ head, (r.setNode p m).nodes headPtr = some head ∧ head.height = H := by
  obtain ⟨head, hhead, hH⟩ := hr.head_node
  by_cases h : headPtr = p
  · refine ⟨m, if_pos h, ?_⟩
    rw [h, hp] at hhead
    obtain rfl := Option.some.inj hhead
    exact hn.trans hH
  · exact ⟨head, (if_neg h).trans hhead, hH⟩

theorem PointsAt.next_mem {r : Rope} {H : ℕ} {xs ys : List Leaf} {iter : RopeIter}
    (hpt : PointsAt iter xs) (hr : Layout r H (xs ++ ys)) (hxs : xs ≠ []) {i : ℕ} (hi : i < H) :
    ∃ d p, pred i (towers xs) = some (d, p) ∧ (iter i).next = some p ∧ p ∈ ids (towers xs) := by
  obtain ⟨d, p, hp⟩ := (hr.rooted.of_append hxs).pred hi
  exact ⟨d, p, hp, hpt i p (by rw [hp]; rfl), pred_mem hp⟩

theorem PointsAt.next_iff {r : Rope} {H : ℕ} {xs ys : List Leaf} {iter : RopeIter}
    (hpt : PointsAt iter xs) (hr : Layout r H (xs ++ ys)) (hxs : xs ≠ []) {i : ℕ} {p : Ptr} :
    (i < H ∧ (iter i).next = some p) ↔ ∃ d, pred i (towers xs) = some (d, p) := by
  constructor
  · rintro ⟨hi, hp⟩
    obtain ⟨d, q, hq, hnext, -⟩ := hpt.next_mem hr hxs hi
    obtain rfl := Option.some.inj (hnext.symm.trans hp)
    exact ⟨d, hq⟩
  · rintro ⟨d, hp⟩
    exact ⟨lt_of_pred hr.height_le_left hp, hpt i p (by rw [hp]; rfl)⟩

theorem Layout.addr_ne {r : Rope} {H : ℕ} {xs ys : List Leaf} {l : Leaf}
    (hr : Layout r H (xs ++ l :: ys)) : ∀ m ∈ xs ++ ys, m.addr ≠ l.addr := by
  have hnd := hr.nodup
  simp only [towers_append, towers_cons, ids_append, ids_cons, List.nodup_middle,
    List.nodup_cons] at hnd
  intro m hm e
  refine hnd.1 ?_
  rw [← ids_append, ← towers_append]
  exact mem_ids_towers.2 ⟨m, hm, e⟩

theorem Rooted.middle {H : ℕ} {xs ys : List Leaf} {l l' : Leaf} (h : Rooted H (xs ++ l :: ys))
    (haddr : l'.addr = l.addr) (hheight : l'.height = l.height) : Rooted H (xs ++ l' :: ys) := by
  obtain ⟨h, t, heq, ha, hh⟩ := h
  cases xs with
  | nil =>
    obtain ⟨rfl, -⟩ := List.cons.inj heq
    exact ⟨l', ys, rfl, haddr.trans ha, hheight.trans hh⟩
  | cons x xs =>
    obtain ⟨rfl, -⟩ := List.cons.inj heq
    exact ⟨x, xs ++ l' :: ys, rfl, ha, hh⟩

theorem wellLinked_resize {r r' : Rope} {H : ℕ} {xs ys : List Leaf} {l l' : Leaf} {iter : RopeIter}
    (hr : Layout r H (xs ++ l :: ys)) (hpt : PointsAt iter (xs ++ [l])) (haddr : l'.addr = l.addr)
    (hheight : l'.height = l.height)
    (hnexts : ∀ q j, r'.nexts q j = if j < H ∧ (iter j).next = some q then
      ⟨(r.nexts q j).skip + l'.chars.length - l.chars.length, (r.nexts q j).next⟩
      else r.nexts q j) : WellLinked r'.nexts (towers (xs ++ l' :: ys)) := by
  have hr' : Layout r H ((xs ++ [l]) ++ ys) := by simpa using hr
  have hxs : xs ++ [l] ≠ [] := by simp
  have hlinked := hr.linked
  rw [towers_append, towers_cons] at hlinked ⊢
  have htower : l'.tower = { l.tower with span := l'.chars.length } := by
    simp [Leaf.tower, haddr, hheight]
  obtain ⟨hnd, hdisj⟩ := hr'.disjoint
  rw [towers_append, towers_cons, towers_nil] at hnd
  rw [htower]
  have hkeep : ∀ i p, (∀ d, pred i (towers (xs ++ [l])) ≠ some (d, p)) →
      r'.nexts p i = r.nexts p i := by
    intro i p hno
    rw [hnexts, if_neg ((hpt.next_iff hr' hxs).not.2 (not_exists.2 hno))]
  refine hlinked.resize hnd ?_ ?_ ?_
  · intro p hp i
    refine hkeep i p fun d e => hdisj p (pred_mem e) hp
  · intro i d p hp
    have hp' : pred i (towers (xs ++ [l])) = some (d, p) := by simpa using hp
    rw [hnexts, if_pos ((hpt.next_iff hr' hxs).2 ⟨d, hp'⟩)]
    rfl
  · intro i p _ hno
    exact hkeep i p (by simpa using hno)

theorem Layout.resize {r r' : Rope} {H : ℕ} {xs ys : List Leaf} {l l' : Leaf} {iter : RopeIter}
    (hr : Layout r H (xs ++ l :: ys)) (hpt : PointsAt iter (xs ++ [l])) (haddr : l'.addr = l.addr)
    (hheight : l'.height = l.height) (hne : l'.addr ≠ headPtr → l'.chars ≠ [])
    (hsize : l'.bytes.length + l'.slack.length = ropeNodeStrSize)
    (hnodes : ∀ q, r'.nodes q = if q = l.addr then some l'.node else r.nodes q)
    (hnexts : ∀ q j, r'.nexts q j = if j < H ∧ (iter j).next = some q then
      ⟨(r.nexts q j).skip + l'.chars.length - l.chars.length, (r.nexts q j).next⟩
      else r.nexts q j)
    (hbrk : r'.brk = r.brk) : Layout r' H (xs ++ l' :: ys) := by
  have hcases : ∀ {P : Leaf → Prop}, P l' → (∀ m ∈ xs ++ l :: ys, P m) → ∀ m ∈ xs ++ l' :: ys, P m :=
    fun hnew hold => forall_mem_middle.2 ⟨hnew, (forall_mem_middle.1 hold).2⟩
  have hids : ids (towers (xs ++ l' :: ys)) = ids (towers (xs ++ l :: ys)) := by
    simp [Leaf.tower, haddr]
  have hmem : l ∈ xs ++ l :: ys := by simp
  refine ⟨hr.rooted.middle haddr hheight, hr.height_le,
    hcases (hheight ▸ hr.height_pos l hmem) hr.height_pos,
    hcases (fun h => hheight ▸ hr.height_lt l hmem (haddr ▸ h)) hr.height_lt,
    hcases hne hr.chars_ne, hcases hsize hr.size, hids ▸ hr.nodup, ?_,
    fun m hm => hbrk ▸ hcases (haddr ▸ hr.below l hmem) hr.below m hm,
    wellLinked_resize hr hpt haddr hheight hnexts⟩
  refine forall_mem_middle.2 ⟨?_, fun m hm => ?_⟩
  · rw [hnodes, if_pos haddr]
  · rw [hnodes, if_neg (hr.addr_ne m hm), (forall_mem_middle.1 hr.live).2 m hm]

theorem Layout.congr {r r' : Rope} {H : ℕ} {ls : List Leaf} (hr : Layout r H ls)
    (hnodes : r'.nodes = r.nodes) (hnexts : r'.nexts = r.nexts) (hbrk : r'.brk = r.brk) :
    Layout r' H ls :=
  ⟨hr.rooted, hr.height_le, hr.height_pos, hr.height_lt, hr.chars_ne, hr.size, hr.nodup,
    fun l hl => hnodes ▸ hr.live l hl, fun l hl => hbrk ▸ hr.below l hl, hnexts ▸ hr.linked⟩

theorem Repr.of_layout {r r' : Rope} {H H' : ℕ} {ls ls' : List Leaf} (hr : Repr r H ls)
    (hl : Layout r' H' ls') (hids : ids (towers ls') = ids (towers ls))
    (hnodes : ∀ q, q ∉ ids (towers ls) → r'.nodes q = r.nodes q)
    (hchars : r'.numChars = (text ls').length) (hbytes : r'.numBytes = (utf8Bytes (text ls')).length) :
    Repr r' H' ls' :=
  ⟨hl, fun p hp => (hnodes p (hids ▸ hp)).trans (hr.dead p (hids ▸ hp)), hchars, hbytes⟩

theorem updateOffsetList_resize {r s : Rope} {H : ℕ} {xs ys : List Leaf} {l m : Leaf}
    {iter : RopeIter} (hr : Layout r H (xs ++ l :: ys)) (hpt : PointsAt iter (xs ++ [l]))
    (haddr : m.addr = l.addr) (hheight : m.height = l.height) (hne : m.addr ≠ headPtr → m.chars ≠ [])
    (hsize : m.bytes.length + m.slack.length = ropeNodeStrSize)
    (hnodes : s.nodes = (r.setNode l.addr m.node).nodes) (hnexts : s.nexts = r.nexts)
    (hbrk : s.brk = r.brk) {δ : ℤ} (hδ : δ = m.chars.length - l.chars.length) :
    ∃ L, updateOffsetList s iter δ = some (s.withNexts L) ∧
      Layout (s.withNexts L) H (xs ++ m :: ys) := by
  have hlive := hr.live l (by simp)
  have hr' : Layout r H ((xs ++ [l]) ++ ys) := by simpa using hr
  obtain ⟨head₁, hhead₁, hH₁⟩ := hr.head_setNode hlive (m := m.node) hheight
  rw [← hnodes] at hhead₁
  have hvalid : IterValid s iter H := by
    have h := (hpt.valid hr' (by simp)).setNode (m := m.node) hlive hheight
    intro i hi
    rw [hnodes]
    exact h i hi
  refine ⟨_, updateOffsetList_eq hhead₁ hH₁ hvalid δ, ?_⟩
  refine hr.resize hpt haddr hheight hne hsize (fun q => by rw [withNexts_nodes, hnodes]; rfl) ?_ hbrk
  intro q j
  rw [withNexts_nexts, hnexts, hδ]
  split_ifs
  · congr 1
    omega
  · rfl

theorem insertBlock_bind {β : Type*} (A B : List Byte) {S C : List Byte} (h : C.length ≤ S.length)
    (f : List Byte → Option β) :
    (if A.length < A.length + B.length then
      (memmove (A ++ B ++ S) (A.length + C.length) A.length (A.length + B.length - A.length)).bind
        fun blk => (memcpy blk A.length C C.length).bind f
    else (memcpy (A ++ B ++ S) A.length C C.length).bind f) = f (A ++ C ++ B ++ S.drop C.length) := by
  split_ifs with hb
  · rw [Nat.add_sub_cancel_left, ← Option.bind_assoc, memcpy_memmove A B h, Option.bind_some]
  · obtain rfl : B = [] := List.eq_nil_of_length_eq_zero (by omega)
    have hcopy := memcpy_append (p := A) (m := S.take C.length) (q := S.drop C.length) (s := C)
      (t := []) (List.length_take_of_le h)
    rw [List.append_nil, List.append_assoc A, List.take_append_drop] at hcopy
    rw [List.append_nil, hcopy, Option.bind_some, List.append_nil]

theorem insertHere_spec {r : Rope} {H : ℕ} {xs ys : List Leaf} {l : Leaf} {iter : RopeIter}
    {a b cs : List Utf8Char} (hr : Repr r H (xs ++ l :: ys)) (hpt : PointsAt iter (xs ++ [l]))
    (hchars : l.chars = a ++ b) (hroom : l.bytes.length + (utf8Bytes cs).length ≤ ropeNodeStrSize) :
    ∃ r', insertHere r l.addr iter (utf8Bytes a).length (utf8Bytes cs) (utf8Bytes cs).length = some r' ∧
      Repr r' H (xs ++ { l with
        chars := a ++ cs ++ b, slack := l.slack.drop (utf8Bytes cs).length } :: ys) := by
  set l' : Leaf := { l with chars := a ++ cs ++ b, slack := l.slack.drop (utf8Bytes cs).length } with hl'
  have hmem : l ∈ xs ++ l :: ys := by simp
  have hlive := hr.live l hmem
  have hsize := hr.size l hmem
  have hbytes : l.bytes = utf8Bytes a ++ utf8Bytes b := by rw [Leaf.bytes, hchars, utf8Bytes_append]
  have hbytes' : l'.bytes = utf8Bytes a ++ utf8Bytes cs ++ utf8Bytes b := by simp [Leaf.bytes, hl']
  have hlen : l.bytes.length = (utf8Bytes a).length + (utf8Bytes b).length := by
    rw [hbytes, List.length_append]
  have hslack : (utf8Bytes cs).length ≤ l.slack.length := by omega
  have hnode' : (⟨utf8Bytes a ++ utf8Bytes cs ++ utf8Bytes b ++ l.slack.drop (utf8Bytes cs).length,
      l.bytes.length + (utf8Bytes cs).length, l.height⟩ : RopeNode) = l'.node := by
    rw [Leaf.node, hbytes', hlen, RopeNode.mk.injEq]
    simp only [hl', List.length_append, true_and, and_true]
    omega
  have hsize' : l'.bytes.length + l'.slack.length = ropeNodeStrSize := by
    rw [hbytes']
    simp only [hl', List.length_append, List.length_drop]
    omega
  have hlen' : l'.chars.length = l.chars.length + cs.length := by
    simp only [hl', hchars, List.length_append]
    omega
  obtain ⟨L, hupdate, hlayout⟩ := updateOffsetList_resize (m := l')
    (s := { r.setNode l.addr l'.node with
      numBytes := r.numBytes + (utf8Bytes cs).length
      numChars := r.numChars + cs.length })
    (δ := cs.length) hr.toLayout hpt rfl rfl
    (fun h hnil => hr.chars_ne l hmem h (by simp_all))
    hsize' rfl rfl rfl
    (by omega)
  refine ⟨_, ?_, hr.of_layout hlayout (by simp [Leaf.tower, hl']) ?_ ?_ ?_⟩
  · rw [insertHere, hlive]
    simp only [Option.bind_eq_bind, Option.bind_some, Leaf.node, hbytes, List.length_append]
    rw [insertBlock_bind _ _ hslack, strlenUtf8_utf8Bytes, ← hlen, hnode']
    exact hupdate
  · intro q hq
    exact if_neg fun e : q = l.addr => hq (e ▸ mem_ids_towers.2 ⟨l, hmem, rfl⟩)
  · have hold := hr.numChars
    simp only [text_append, text_cons, List.length_append] at hold
    simp only [text_append, text_cons, List.length_append, hlen']
    show r.numChars + cs.length = _
    omega
  · have hold := hr.numBytes
    simp only [text_append, text_cons, utf8Bytes_append, List.length_append, hchars] at hold
    simp only [text_append, text_cons, utf8Bytes_append, List.length_append, hl']
    show r.numBytes + (utf8Bytes cs).length = _
    omega

/-- The end of a node cut off: its bytes stay in the block, past the bytes the node counts. -/
theorem cutTail_spec {r : Rope} {H : ℕ} {xs ys : List Leaf} {l : Leaf} {iter : RopeIter}
    {a b : List Utf8Char} (hr : Repr r H (xs ++ l :: ys)) (hpt : PointsAt iter (xs ++ [l]))
    (hchars : l.chars = a ++ b) (hne : l.addr ≠ headPtr → a ≠ []) :
    ∃ r', updateOffsetList (r.setNode l.addr { l.node with numBytes := (utf8Bytes a).length }) iter
        (-(b.length : ℤ)) = some r' ∧
      Repr { r' with
        numChars := r'.numChars - b.length
        numBytes := r'.numBytes - (utf8Bytes b).length } H
        (xs ++ { l with chars := a, slack := utf8Bytes b ++ l.slack } :: ys) := by
  set l' : Leaf := { l with chars := a, slack := utf8Bytes b ++ l.slack } with hl'
  have hmem : l ∈ xs ++ l :: ys := by simp
  have hsize := hr.size l hmem
  have hbytes : l.bytes = utf8Bytes a ++ utf8Bytes b := by rw [Leaf.bytes, hchars, utf8Bytes_append]
  have hnode' : { l.node with numBytes := (utf8Bytes a).length } = l'.node := by
    simp [Leaf.node, hchars, hl', Leaf.bytes]
  obtain ⟨L, hupdate, hlayout⟩ := updateOffsetList_resize (m := l')
    (s := r.setNode l.addr l'.node) (δ := -(b.length : ℤ)) hr.toLayout hpt rfl rfl hne
    (by
      rw [hbytes, List.length_append] at hsize
      simp only [hl', Leaf.bytes, List.length_append]
      omega) rfl rfl rfl
    (by simp only [hl', hchars, List.length_append]; omega)
  rw [hnode']
  refine ⟨_, hupdate, hr.of_layout (hlayout.congr rfl rfl rfl) (by simp [Leaf.tower, hl']) ?_ ?_ ?_⟩
  · intro q hq
    exact if_neg fun e : q = l.addr => hq (e ▸ mem_ids_towers.2 ⟨l, hmem, rfl⟩)
  · have hold := hr.numChars
    simp only [text_append, text_cons, List.length_append, hchars] at hold
    simp only [text_append, text_cons, List.length_append, hl']
    show r.numChars - b.length = _
    omega
  · have hold := hr.numBytes
    simp only [text_append, text_cons, utf8Bytes_append, List.length_append, hchars] at hold
    simp only [text_append, text_cons, utf8Bytes_append, List.length_append, hl']
    show r.numBytes - (utf8Bytes b).length = _
    omega

end MutantC.Librope
