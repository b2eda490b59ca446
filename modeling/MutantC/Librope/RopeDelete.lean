import MutantC.Librope.RopeEdit

/-! `rope_del` on the list of leaves: the first node is trimmed, the nodes after it are removed, and
the last one is trimmed at its start. -/

namespace MutantC.Librope
open CBuffer Iteration SkipList

/-- A leaf without the `k` characters from `o` on; the bytes past the new end stay as they were. -/
def Leaf.cut (l : Leaf) (o k : ℕ) : Leaf :=
  let gone := utf8Bytes ((l.chars.drop o).take k)
  let kept := utf8Bytes (l.chars.drop (o + k))
  { l with
    chars := l.chars.take o ++ l.chars.drop (o + k)
    slack := (gone ++ kept ++ l.slack).drop kept.length }

def dropLeaves : ℕ → List Leaf → List Leaf
  | _, [] => []
  | n, l :: ls => if l.chars.length ≤ n then dropLeaves (n - l.chars.length) ls else l.cut 0 n :: ls

theorem Leaf.cut_eq {l : Leaf} {a m b : List Utf8Char} (h : l.chars = a ++ m ++ b) :
    l.cut a.length m.length = { l with
      chars := a ++ b
      slack := (utf8Bytes m ++ utf8Bytes b ++ l.slack).drop (utf8Bytes b).length } := by
  have htake : l.chars.take a.length = a := by rw [h, List.append_assoc, List.take_left]
  have hmid : (l.chars.drop a.length).take m.length = m := by
    rw [h, List.append_assoc, List.drop_left, List.take_left]
  have hdrop : l.chars.drop (a.length + m.length) = b := by
    rw [h, ← List.length_append, List.drop_left]
  simp only [Leaf.cut, htake, hmid, hdrop]

theorem text_dropLeaves (n : ℕ) (ls : List Leaf) : text (dropLeaves n ls) = (text ls).drop n := by
  induction ls generalizing n with
  | nil => simp [dropLeaves]
  | cons l ls ih =>
    rw [dropLeaves, text_cons, List.drop_append]
    split_ifs with h
    · rw [ih, List.drop_eq_nil_of_le h, List.nil_append]
    · rw [show n - l.chars.length = 0 by omega]
      simp [Leaf.cut]

theorem dropLeaves_all {n : ℕ} {ls : List Leaf} (h : (text ls).length ≤ n) : dropLeaves n ls = [] := by
  induction ls generalizing n with
  | nil => rfl
  | cons l ls ih =>
    rw [text_cons, List.length_append] at h
    rw [dropLeaves, if_pos (by omega), ih (by omega)]

theorem dropLeaves_zero {ls : List Leaf} (h : ∀ l ∈ ls, l.chars ≠ []) : dropLeaves 0 ls = ls := by
  cases ls with
  | nil => rfl
  | cons l ls =>
    have hpos := List.length_pos_of_ne_nil (h l List.mem_cons_self)
    have hcut := Leaf.cut_eq (l := l) (a := []) (m := []) (b := l.chars) rfl
    rw [dropLeaves, if_neg (by omega)]
    simp only [List.length_nil, utf8Bytes_nil, List.nil_append, List.drop_left] at hcut
    rw [hcut]

/-- A rope whose character count is still to be settled. -/
structure Holds (r : Rope) (H : ℕ) (ls : List Leaf) : Prop extends Layout r H ls where
  dead : ∀ p, p ∉ ids (towers ls) → r.nodes p = none
  numBytes : r.numBytes = (utf8Bytes (text ls)).length

theorem Holds.repr {r : Rope} {H : ℕ} {ls : List Leaf} (h : Holds r H ls)
    (hn : r.numChars = (text ls).length) : Repr r H ls :=
  ⟨h.toLayout, h.dead, hn, h.numBytes⟩

def Above (iter : RopeIter) (xs : List Leaf) (l : Leaf) : Prop :=
  ∀ i p, l.height ≤ i → (pred i (towers xs)).map Prod.snd = some p → (iter i).next = some p

theorem PointsAt.above {iter : RopeIter} {xs : List Leaf} (h : PointsAt iter xs) (l : Leaf) :
    Above iter xs l := fun i p _ => h i p

theorem PointsAt.above_of_snoc {iter : RopeIter} {xs : List Leaf} {l : Leaf}
    (h : PointsAt iter (xs ++ [l])) : Above iter xs l := by
  intro i p hi hp
  refine h i p ?_
  have hi' : ¬ i < l.tower.height := Nat.not_lt.2 hi
  rw [towers_append, towers_cons, towers_nil, pred_snoc, if_neg hi', Option.map_map]
  exact hp

def standOn (iter : RopeIter) (l : Leaf) : RopeIter :=
  fun i => if i < l.height then ⟨0, some l.addr⟩ else iter i

theorem Above.pointsAt {iter : RopeIter} {xs : List Leaf} {l : Leaf} (h : Above iter xs l) :
    PointsAt (standOn iter l) (xs ++ [l]) := by
  intro i p hp
  rw [towers_append, towers_cons, towers_nil, pred_snoc] at hp
  unfold standOn
  by_cases hi : i < l.height
  · rw [if_pos (show i < l.tower.height from hi)] at hp
    rw [if_pos hi]
    exact hp
  · rw [if_neg (show ¬ i < l.tower.height from hi), Option.map_map] at hp
    rw [if_neg hi]
    exact h i p (Nat.not_lt.1 hi) hp

section Trim
variable {r : Rope} {H : ℕ} {xs ys : List Leaf} {l : Leaf} {iter : RopeIter} {a m b : List Utf8Char}

theorem trimBlock_bind {β : Type*} (A M B S : List Byte) (f : List Byte → Option β) :
    (if (A.length + M.length + B.length) - A.length - M.length = 0 then f (A ++ M ++ B ++ S)
      else (memmove (A ++ M ++ B ++ S) A.length (A.length + M.length)
        ((A.length + M.length + B.length) - A.length - M.length)).bind f) =
      f (A ++ B ++ (M ++ B ++ S).drop B.length) := by
  have hlen : (A.length + M.length + B.length) - A.length - M.length = B.length := by omega
  rw [hlen]
  split_ifs with hb
  · obtain rfl : B = [] := List.eq_nil_of_length_eq_zero hb
    simp
  · rw [memmove_close, Option.bind_some]

theorem Leaf.bytes_cut (hchars : l.chars = a ++ m ++ b) :
    (l.cut a.length m.length).bytes = utf8Bytes a ++ utf8Bytes b := by
  rw [Leaf.bytes, Leaf.cut_eq hchars, utf8Bytes_append]

theorem Leaf.size_cut (hchars : l.chars = a ++ m ++ b)
    (hsize : l.bytes.length + l.slack.length = ropeNodeStrSize) :
    (l.cut a.length m.length).bytes.length + (l.cut a.length m.length).slack.length =
      ropeNodeStrSize := by
  rw [Leaf.bytes_cut hchars, Leaf.cut_eq hchars]
  simp only [Leaf.bytes, hchars, utf8Bytes_append, List.length_append] at hsize
  simp only [List.length_drop, List.length_append]
  omega

theorem trimNode_eq (hlive : r.nodes l.addr = some l.node) (hchars : l.chars = a ++ m ++ b) :
    trimNode r l.addr a.length m.length =
      some (({ r.setNode l.addr (l.cut a.length m.length).node with
        numBytes := r.numBytes - (utf8Bytes m).length }).withNexts fun q j =>
          if 0 ≤ j ∧ j < l.height ∧ some l.addr = some q then
            ⟨(r.nexts q j).skip - m.length, (r.nexts q j).next⟩ else r.nexts q j) := by
  have hbytes : l.bytes = utf8Bytes a ++ utf8Bytes m ++ utf8Bytes b := by
    rw [Leaf.bytes, hchars, utf8Bytes_append, utf8Bytes_append]
  have hlead : countBytesInUtf8 l.node.str a.length = (utf8Bytes a).length := by
    rw [Leaf.node, hbytes, List.append_assoc, List.append_assoc, countBytesInUtf8_append]
  have hgone : countBytesInUtf8 (l.node.str.drop (utf8Bytes a).length) m.length =
      (utf8Bytes m).length := by
    rw [Leaf.node, hbytes, List.append_assoc, List.append_assoc, List.drop_left, countBytesInUtf8_append]
  have hnode : (⟨utf8Bytes a ++ utf8Bytes b ++ (utf8Bytes m ++ utf8Bytes b ++ l.slack).drop
      (utf8Bytes b).length, l.bytes.length - (utf8Bytes m).length, l.height⟩ : RopeNode) =
        (l.cut a.length m.length).node := by
    rw [Leaf.node, Leaf.bytes_cut hchars, Leaf.cut_eq hchars, hbytes, RopeNode.mk.injEq]
    simp only [List.length_append, true_and, and_true]
    omega
  set r₁ : Rope := { r.setNode l.addr (l.cut a.length m.length).node with
    numBytes := r.numBytes - (utf8Bytes m).length } with hr₁
  have hlive₁ : r₁.nodes l.addr = some (l.cut a.length m.length).node := if_pos rfl
  rw [trimNode, hlive]
  simp only [Option.bind_eq_bind, Option.bind_some, hlead, hgone]
  simp only [Leaf.node, hbytes, List.length_append]
  refine (trimBlock_bind (utf8Bytes a) (utf8Bytes m) (utf8Bytes b) l.slack _).trans ?_
  rw [← List.length_append, ← List.length_append, ← hbytes, hnode]
  exact forRange_mapLink (r := r₁) (Nat.zero_le _) (fun _ => some l.addr)
    (fun _ s => { s with skip := s.skip - m.length })
    fun i _ hi => ⟨l.addr, (l.cut a.length m.length).node, rfl, hlive₁, hi⟩

/-- Trimming one node: it loses the characters `m`, and the links that cross it get shorter. -/
theorem trim_spec (hr : Holds r H (xs ++ l :: ys)) (hchars : l.chars = a ++ m ++ b)
    (hab : Above iter xs l) (hvalid : IterValid r iter H) (hne : l.addr ≠ headPtr → a ++ b ≠ []) :
    ∃ r', ((trimNode r l.addr a.length m.length).bind fun r =>
        lowerLinks r iter l.height m.length) = some r' ∧
      Holds r' H (xs ++ l.cut a.length m.length :: ys) ∧ r'.numChars = r.numChars ∧ r'.brk = r.brk := by
  have hmem : l ∈ xs ++ l :: ys := by simp
  have hlive := hr.live l hmem
  have hleH : l.height ≤ H := hr.height_le_of_mem hmem
  have hheight' : (l.cut a.length m.length).node.height = l.height := rfl
  have htrim := trimNode_eq hlive hchars
  set r₁ : Rope := { r.setNode l.addr (l.cut a.length m.length).node with
    numBytes := r.numBytes - (utf8Bytes m).length } with hr₁
  set L₁ : Ptr → ℕ → SkipNode := fun q j => if 0 ≤ j ∧ j < l.height ∧ some l.addr = some q then
    ⟨(r.nexts q j).skip - m.length, (r.nexts q j).next⟩ else r.nexts q j with hL₁
  -- below the height of the node its own links shrink, above it those of the nodes before it
  obtain ⟨head, hhead, hH⟩ := hr.toLayout.head_setNode hlive hheight'
  have hvalid₁ : IterValid (r₁.withNexts L₁) iter H := hvalid.setNode hlive hheight'
  have hlower := lowerLinks_eq (r := r₁.withNexts L₁) hhead hH hvalid₁ hleH m.length
  refine ⟨_, (congrArg (Option.bind · fun r => lowerLinks r iter l.height m.length) htrim).trans hlower,
    ⟨?_, ?_, ?_⟩, rfl, rfl⟩
  · refine hr.toLayout.resize hab.pointsAt rfl rfl ?_ (Leaf.size_cut hchars (hr.size l hmem))
      (fun q => rfl) ?_ rfl
    · rw [Leaf.cut_eq hchars]
      exact hne
    · intro q j
      have hlen : (r.nexts q j).skip + (l.cut a.length m.length).chars.length - l.chars.length =
          (r.nexts q j).skip - m.length := by
        simp only [Leaf.cut_eq hchars, hchars, List.length_append]
        omega
      rw [withNexts_nexts, hL₁, hlen]
      unfold standOn
      by_cases hj : j < l.height
      · simp only [withNexts_nexts, hj, Nat.not_le.2 hj, hj.trans_le hleH, false_and, if_false, if_true,
          true_and, Nat.zero_le]
      · simp only [withNexts_nexts, hj, Nat.not_lt.1 hj, false_and, and_false, if_false, true_and]
  · intro p hp
    have hids : ids (towers (xs ++ l.cut a.length m.length :: ys)) = ids (towers (xs ++ l :: ys)) := by
      simp [Leaf.tower, Leaf.cut]
    rw [hids] at hp
    exact (if_neg fun e : p = l.addr => hp (e ▸ mem_ids_towers.2 ⟨l, hmem, rfl⟩)).trans (hr.dead p hp)
  · have hold := hr.numBytes
    simp only [text_append, text_cons, utf8Bytes_append, List.length_append, hchars] at hold
    simp only [text_append, text_cons, utf8Bytes_append, List.length_append, Leaf.cut_eq hchars]
    show r.numBytes - (utf8Bytes m).length = _
    omega

end Trim

section Unlink
variable {r : Rope} {H : ℕ} {xs ys : List Leaf} {l : Leaf} {iter : RopeIter}

def removeLinks (r : Rope) (iter : RopeIter) (H : ℕ) (l : Leaf) (q : Ptr) (j : ℕ) : SkipNode :=
  if j < H ∧ (iter j).next = some q then
    if j < l.height then
      ⟨(r.nexts q j).skip + ((r.nexts l.addr j).skip - l.chars.length), (r.nexts l.addr j).next⟩
    else ⟨(r.nexts q j).skip - l.chars.length, (r.nexts q j).next⟩
  else r.nexts q j

theorem wellLinked_removeLinks (hr : Layout r H (xs ++ l :: ys)) (hxs : xs ≠ [])
    (hpt : PointsAt iter xs) : WellLinked (removeLinks r iter H l) (towers (xs ++ ys)) := by
  have hlinked := hr.linked
  obtain ⟨hnd, hdisj⟩ := hr.disjoint
  have hkeep : ∀ i p, (∀ d, pred i (towers xs) ≠ some (d, p)) →
      removeLinks r iter H l p i = r.nexts p i := by
    intro i p hno
    rw [removeLinks, if_neg ((hpt.next_iff hr hxs).not.2 (not_exists.2 hno))]
  rw [towers_append, towers_cons] at hlinked
  rw [towers_append]
  refine hlinked.remove hnd ?_ ?_ ?_ fun i p _ hno => hkeep i p hno
  · intro p hp i
    exact hkeep i p fun d e => hdisj p (pred_mem e) (List.mem_cons_of_mem _ hp)
  · intro i hi d p hp
    have hi' : i < l.height := hi
    rw [removeLinks, if_pos ((hpt.next_iff hr hxs).2 ⟨d, hp⟩), if_pos hi']
    rfl
  · intro i hi d p hp
    have hi' : ¬ i < l.height := Nat.not_lt.2 hi
    rw [removeLinks, if_pos ((hpt.next_iff hr hxs).2 ⟨d, hp⟩), if_neg hi']
    rfl

theorem Layout.remove {r' : Rope} (hr : Layout r H (xs ++ l :: ys)) (hxs : xs ≠ [])
    (hpt : PointsAt iter xs)
    (hnodes : ∀ q, r'.nodes q = if q = l.addr then none else r.nodes q)
    (hnexts : ∀ q j, r'.nexts q j = removeLinks r iter H l q j) (hbrk : r'.brk = r.brk) :
    Layout r' H (xs ++ ys) := by
  have hcases : ∀ {P : Leaf → Prop}, (∀ m ∈ xs ++ l :: ys, P m) → ∀ m ∈ xs ++ ys, P m :=
    fun hold => (forall_mem_middle.1 hold).2
  have hnd := hr.nodup
  simp only [towers_append, towers_cons, ids_append, ids_cons, List.nodup_middle, List.nodup_cons] at hnd
  refine ⟨(hr.rooted.of_append hxs).append ys, hr.height_le, hcases hr.height_pos,
    hcases hr.height_lt, hcases hr.chars_ne, hcases hr.size, ?_, ?_,
    fun m hm => hbrk ▸ hcases hr.below m hm, ?_⟩
  · rw [towers_append, ids_append]
    exact hnd.2
  · intro m hm
    rw [hnodes, if_neg (hr.addr_ne m hm), hcases hr.live m hm]
  · refine (wellLinked_removeLinks hr hxs hpt).congr fun p _ i => hnexts p i

theorem unlinkNode_eq (hlive : r.nodes l.addr = some l.node) (hvalid : IterValid r iter l.height) :
    unlinkNode r l.addr iter l.chars.length =
      some { r.withNexts fun q j => if j < l.height ∧ (iter j).next = some q then
          ⟨(r.nexts q j).skip + ((r.nexts l.addr j).skip - l.chars.length), (r.nexts l.addr j).next⟩
          else r.nexts q j with
        numBytes := r.numBytes - l.bytes.length } := by
  have hloop := unlinkLevels_eq (r := r) hlive hvalid l.chars.length
  rw [unlinkNode, hlive]
  simp only [Option.bind_eq_bind, Option.bind_some]
  rw [hloop]
  rfl

/-- Removing one node: its predecessors take over its links, and its block is freed. -/
theorem unlink_spec (hr : Holds r H (xs ++ l :: ys)) (hxs : xs ≠ []) (hpt : PointsAt iter xs) :
    ∃ r', ((unlinkNode r l.addr iter l.chars.length).bind fun r =>
        (r.getNext l.addr 0).bind fun s => (r.freeNode l.addr).bind fun r =>
        (lowerLinks r iter l.height l.chars.length).bind fun r =>
          some (r, s.next, l.chars.length)) = some (r', ys.head?.map Leaf.addr, l.chars.length) ∧
      Holds r' H (xs ++ ys) ∧ r'.numChars = r.numChars ∧ r'.brk = r.brk := by
  have hmem : l ∈ xs ++ l :: ys := by simp
  have hlive := hr.live l hmem
  have hpos := hr.height_pos l hmem
  have hleH : l.height ≤ H := hr.height_le_of_mem hmem
  have hvalid := hpt.valid hr.toLayout hxs
  obtain ⟨-, hdisj⟩ := hr.toLayout.disjoint
  have haway : ∀ i < H, (iter i).next ≠ some l.addr := by
    intro i hi e
    obtain ⟨d, p, -, hnext, hp⟩ := hpt.next_mem hr.toLayout hxs hi
    obtain rfl := Option.some.inj (hnext.symm.trans e)
    exact hdisj _ hp (by simp [Leaf.tower])
  obtain ⟨head, hhead, hH⟩ := hr.head_node
  have hheadne : headPtr ≠ l.addr := (hr.ne_headPtr hxs l List.mem_cons_self).symm
  set L₁ : Ptr → ℕ → SkipNode := fun q j => if j < l.height ∧ (iter j).next = some q then
    ⟨(r.nexts q j).skip + ((r.nexts l.addr j).skip - l.chars.length), (r.nexts l.addr j).next⟩
    else r.nexts q j with hL₁
  have hunlink := unlinkNode_eq hlive (hvalid.of_le hleH)
  set r₂ : Rope := { r.withNexts L₁ with numBytes := r.numBytes - l.bytes.length } with hr₂
  have hfirst : r₂.getNext l.addr 0 = some ⟨l.chars.length, ys.head?.map Leaf.addr⟩ := by
    have hold := hr.toLayout.first
    rw [getNext_eq hlive hpos] at hold
    have hnext : ¬ (0 < l.height ∧ (iter 0).next = some l.addr) :=
      fun h => haway 0 (hpos.trans_le hleH) h.2
    rw [getNext_eq (r := r₂) hlive hpos, ← hold]
    exact congrArg some (if_neg hnext)
  set r₃ : Rope := { r₂ with nodes := fun q => if q = l.addr then none else r.nodes q } with hr₃
  have hfree : r₂.freeNode l.addr = some r₃ := by
    rw [Rope.freeNode, show r₂.nodes l.addr = some l.node from hlive]
    rfl
  have hvalid₃ : IterValid r₃ iter H := by
    intro i hi
    obtain ⟨d, p, n, hiter, hp, hn⟩ := hvalid i hi
    refine ⟨d, p, n, hiter, (if_neg ?_).trans hp, hn⟩
    rintro rfl
    exact haway i hi (by rw [hiter])
  have hlower := lowerLinks_eq (r := r₃) ((if_neg hheadne).trans hhead) hH hvalid₃ hleH l.chars.length
  set r₄ : Rope := r₃.withNexts fun q j => if l.height ≤ j ∧ j < H ∧ (iter j).next = some q then
    ⟨(L₁ q j).skip - l.chars.length, (L₁ q j).next⟩ else L₁ q j with hr₄
  refine ⟨r₄, ?_, ⟨hr.toLayout.remove hxs hpt (fun q => rfl) ?_ rfl, ?_, ?_⟩, rfl, rfl⟩
  · rw [hunlink, Option.bind_some, hfirst, Option.bind_some, hfree, Option.bind_some, hlower,
      Option.bind_some]
    rfl
  · intro q j
    rw [hr₄, withNexts_nexts, hL₁, removeLinks]
    by_cases hj : j < l.height
    · simp only [hj, Nat.not_le.2 hj, hj.trans_le hleH, false_and, if_false, if_true, true_and]
    · simp only [hj, Nat.not_lt.1 hj, false_and, if_false, true_and]
  · intro p hp
    show (if p = l.addr then none else r.nodes p) = none
    split_ifs with h
    · rfl
    · refine hr.dead p ?_
      simp only [towers_append, towers_cons, ids_append, ids_cons, List.mem_append, List.mem_cons,
        not_or] at hp ⊢
      exact ⟨hp.1, h, hp.2⟩
  · have hold := hr.numBytes
    simp only [text_append, text_cons, utf8Bytes_append, List.length_append] at hold ⊢
    show r.numBytes - (utf8Bytes l.chars).length = _
    omega

end Unlink

section Loop
variable {r : Rope} {H : ℕ} {xs ys : List Leaf} {l : Leaf} {iter : RopeIter} {a m b : List Utf8Char}

theorem delRound_trim (hr : Holds r H (xs ++ l :: ys)) (hchars : l.chars = a ++ m ++ b)
    (hab : Above iter xs l) (hvalid : IterValid r iter H) (hne : l.addr ≠ headPtr → a ++ b ≠ [])
    {n : ℕ} (hm : min n (l.chars.length - a.length) = m.length) :
    ∃ r', delRound r l.addr a.length iter n = some (r', some l.addr, m.length) ∧
      Holds r' H (xs ++ l.cut a.length m.length :: ys) ∧ r'.numChars = r.numChars ∧ r'.brk = r.brk := by
  obtain ⟨r', hrun, hr', hrest⟩ := trim_spec hr hchars hab hvalid hne
  refine ⟨r', ?_, hr', hrest⟩
  have hcase : m.length < l.chars.length ∨ l.addr = headPtr := by
    by_cases h : l.addr = headPtr
    · exact .inr h
    · have hpos := List.length_pos_of_ne_nil (hne h)
      rw [hchars]
      simp only [List.length_append] at hpos ⊢
      omega
  rw [delRound, hr.live l (by simp), hr.toLayout.first]
  simp only [Option.bind_eq_bind, Option.bind_some, hm, if_pos hcase]
  rw [← Option.bind_assoc]
  exact congrArg (Option.bind · fun r => some (r, some l.addr, m.length)) hrun

theorem delRound_unlink (hr : Holds r H (xs ++ l :: ys)) (hxs : xs ≠ []) (hpt : PointsAt iter xs)
    (hne : l.addr ≠ headPtr) {n : ℕ} (hn : l.chars.length ≤ n) :
    ∃ r', delRound r l.addr 0 iter n = some (r', ys.head?.map Leaf.addr, l.chars.length) ∧
      Holds r' H (xs ++ ys) ∧ r'.numChars = r.numChars ∧ r'.brk = r.brk := by
  obtain ⟨r', hrun, hr', hrest⟩ := unlink_spec hr hxs hpt
  refine ⟨r', ?_, hr', hrest⟩
  rw [delRound, hr.live l (by simp), hr.toLayout.first]
  simp only [Option.bind_eq_bind, Option.bind_some, Nat.sub_zero, Nat.min_eq_right hn, lt_irrefl, hne,
    or_self, if_false]
  exact hrun

theorem skipEnd_start (hr : Holds r H (xs ++ l :: ys)) (h : l.chars ≠ []) (iter : RopeIter) :
    skipEnd r l.addr 0 iter = some (l.addr, 0) := by
  have hpos := List.length_pos_of_ne_nil h
  rw [skipEnd, hr.toLayout.first, Option.bind_eq_bind, Option.bind_some, if_neg (by simp only; omega)]

/-- No round of the loop fails; `P` holds before each of them, and `Q` at the end. -/
def DelAlong (P Q : Rope → Prop) : ℕ → Rope → Option Ptr → ℕ → RopeIter → ℕ → Prop
  | _, r, _, _, _, 0 => Q r
  | 0, _, _, _, _, _ + 1 => False
  | fuel + 1, r, e, offset, iter, length + 1 =>
    P r ∧ ∃ e₀ e₁ offset₁ r' e' removed, e = some e₀ ∧ skipEnd r e₀ offset iter = some (e₁, offset₁) ∧
      delRound r e₁ offset₁ iter (length + 1) = some (r', e', removed) ∧
      DelAlong P Q fuel r' e' offset₁ iter (length + 1 - removed)

section
variable {P Q Q' : Rope → Prop} {fuel : ℕ} {e : Option Ptr} {offset n : ℕ}

theorem delAlong_zero (h : Q r) : DelAlong P Q fuel r e offset iter 0 := by
  cases fuel <;> exact h

theorem DelAlong.mono (h : DelAlong P Q fuel r e offset iter n) (hQ : ∀ r, Q r → Q' r) :
    DelAlong P Q' fuel r e offset iter n := by
  induction fuel generalizing r e offset n with
  | zero =>
    cases n with
    | zero => exact hQ r h
    | succ n => exact h
  | succ fuel ih =>
    cases n with
    | zero => exact hQ r h
    | succ n =>
      obtain ⟨hP, e₀, e₁, offset₁, r', e', removed, he, hskip, hround, hrest⟩ := h
      exact ⟨hP, e₀, e₁, offset₁, r', e', removed, he, hskip, hround, ih hrest⟩

theorem DelAlong.start (h : DelAlong P Q fuel r e offset iter n) (hQ : ∀ r, Q r → P r) : P r := by
  cases n with
  | zero => cases fuel <;> exact hQ r h
  | succ n =>
    cases fuel with
    | zero => exact h.elim
    | succ fuel => exact h.1

theorem DelAlong.run (h : DelAlong P Q fuel r e offset iter n) :
    ∃ r', ropeDelLoop fuel r e offset iter n = some r' ∧ Q r' := by
  induction fuel generalizing r e offset n with
  | zero =>
    cases n with
    | zero => exact ⟨r, rfl, h⟩
    | succ n => exact h.elim
  | succ fuel ih =>
    cases n with
    | zero => exact ⟨r, rfl, h⟩
    | succ n =>
      obtain ⟨-, e₀, e₁, offset₁, r', e', removed, rfl, hskip, hround, hrest⟩ := h
      obtain ⟨r'', hrun, hQ⟩ := ih hrest
      refine ⟨r'', ?_, hQ⟩
      rw [ropeDelLoop]
      simp only [Option.bind_eq_bind, Option.bind_some, hskip, hround, hrun]

/-- Past the end of a node the loop goes on as if it stood at the start of the next one. -/
theorem DelAlong.of_next (hr : Holds r H (xs ++ l :: ys)) (hzero : (iter 0).next = some l.addr)
    (hn : n ≤ (text ys).length) (h : DelAlong P Q fuel r (ys.head?.map Leaf.addr) 0 iter n) :
    DelAlong P Q fuel r (some l.addr) l.chars.length iter n := by
  cases n with
  | zero => cases fuel <;> exact h
  | succ n =>
    cases fuel with
    | zero => exact h
    | succ fuel =>
      cases ys with
      | nil => simp at hn
      | cons y ys =>
        have hr' : Holds r H ((xs ++ [l]) ++ y :: ys) := by simpa using hr
        have hy : y.chars ≠ [] := hr'.chars_ne_right (by simp) y List.mem_cons_self
        have hend : skipEnd r l.addr l.chars.length iter = some (y.addr, 0) := by
          rw [skipEnd, hr.toLayout.first]
          simp only [Option.bind_eq_bind, Option.bind_some, if_true, hzero, hr.toLayout.first]
          rfl
        obtain ⟨hP, e₀, e₁, offset₁, r', e', removed, he, hskip, hrest⟩ := h
        obtain rfl := Option.some.inj he
        rw [skipEnd_start hr' hy] at hskip
        exact ⟨hP, l.addr, e₁, offset₁, r', e', removed, rfl, hend.trans hskip, hrest⟩

end

theorem ropeDelLoop_next (hr : Holds r H (xs ++ ys)) (hxs : xs ≠ []) (hpt : PointsAt iter xs) {n : ℕ}
    (hn : n ≤ (text ys).length) {fuel : ℕ} (hfuel : ys.length ≤ fuel) :
    DelAlong (fun r => ∃ ls, Holds r H ls)
      (fun r' => Holds r' H (xs ++ dropLeaves n ys) ∧ r'.numChars = r.numChars)
      fuel r (ys.head?.map Leaf.addr) 0 iter n := by
  induction ys generalizing r n fuel with
  | nil =>
    obtain rfl : n = 0 := Nat.le_zero.1 hn
    exact delAlong_zero ⟨hr, rfl⟩
  | cons l ys ih =>
    have haway := hr.ne_headPtr hxs
    have hchars := hr.chars_ne_right hxs
    have hl := hchars l List.mem_cons_self
    cases n with
    | zero =>
      rw [dropLeaves_zero hchars]
      exact delAlong_zero ⟨hr, rfl⟩
    | succ n =>
      cases fuel with
      | zero => simp at hfuel
      | succ fuel =>
        -- a node all of whose characters go is unlinked; the last one is trimmed
        by_cases hle : l.chars.length ≤ n + 1
        · obtain ⟨r₁, hround, hr₁, hnum, -⟩ :=
            delRound_unlink hr hxs hpt (haway l List.mem_cons_self) hle
          rw [text_cons, List.length_append] at hn
          refine ⟨⟨_, hr⟩, l.addr, l.addr, 0, r₁, _, _, rfl, skipEnd_start hr hl iter, hround, ?_⟩
          refine (ih hr₁ (n := n + 1 - l.chars.length) (by omega)
            (Nat.le_of_succ_le_succ hfuel)).mono fun r' h => ?_
          rw [dropLeaves, if_pos hle]
          exact ⟨h.1, h.2.trans hnum⟩
        · have hsplit : l.chars = [] ++ l.chars.take (n + 1) ++ l.chars.drop (n + 1) := by simp
          have hlen : (l.chars.take (n + 1)).length = n + 1 := List.length_take_of_le (by omega)
          obtain ⟨r₁, hround, hr₁, hnum, -⟩ := delRound_trim (n := n + 1) hr hsplit (hpt.above l)
            (hpt.valid hr.toLayout hxs)
            (fun _ h => by simp only [List.nil_append, List.drop_eq_nil_iff] at h; omega)
            (by simp only [List.length_nil, hlen]; omega)
          refine ⟨⟨_, hr⟩, l.addr, l.addr, 0, r₁, _, _, rfl, skipEnd_start hr hl iter, hround, ?_⟩
          rw [List.length_nil, hlen] at hr₁
          rw [hlen, Nat.sub_self, dropLeaves, if_neg hle]
          exact delAlong_zero ⟨hr₁, hnum⟩

theorem Leaf.cut_zero {l : Leaf} {o : ℕ} (h : o ≤ l.chars.length) : l.cut o 0 = l := by
  have hsplit : l.chars = l.chars.take o ++ [] ++ l.chars.drop o := by simp
  have hcut := Leaf.cut_eq hsplit
  simp only [List.length_nil, List.length_take_of_le h, utf8Bytes_nil, List.nil_append, List.drop_left,
    List.take_append_drop] at hcut
  exact hcut

/-- The loop from a position inside a node on: the node is trimmed, then the nodes after it. -/
theorem ropeDelLoop_spec {e : Leaf} (hr : Holds r H (xs ++ e :: ys)) (hchars : e.chars = a ++ b)
    (ha : a ≠ [] ∨ xs = []) (hzero : (iter 0).next = some e.addr) (hpt : PointsAt iter (xs ++ [e]))
    {n : ℕ} (hn : n ≤ (b ++ text ys).length) {fuel : ℕ} (hfuel : ys.length < fuel) :
    DelAlong (fun r => ∃ ls, Holds r H ls)
      (fun r' => Holds r' H (xs ++ e.cut a.length (min n b.length) :: dropLeaves (n - b.length) ys) ∧
        r'.numChars = r.numChars)
      fuel r (some e.addr) a.length iter n := by
  have hr' : Holds r H ((xs ++ [e]) ++ ys) := List.append_cons xs e ys ▸ hr
  have hle : a.length ≤ e.chars.length := by
    rw [hchars, List.length_append]
    omega
  have hlater := hr'.chars_ne_right (by simp)
  rw [List.length_append] at hn
  by_cases hb : b = []
  · -- at the end of the node: nothing of it is removed
    subst hb
    rw [List.append_nil] at hchars
    have hrest := ropeDelLoop_next (n := n) hr' (by simp) hpt (by simpa using hn) hfuel.le
    rw [← hchars, List.length_nil, Nat.min_zero, Leaf.cut_zero (hchars ▸ hle), Nat.sub_zero]
    refine (hrest.of_next hr hzero (by simpa using hn)).mono fun r' h => ?_
    rw [List.append_cons]
    exact h
  · have hbpos := List.length_pos_of_ne_nil hb
    cases n with
    | zero =>
      rw [Nat.zero_min, Leaf.cut_zero hle, Nat.zero_sub, dropLeaves_zero hlater]
      exact delAlong_zero ⟨hr, rfl⟩
    | succ n =>
      cases fuel with
      | zero => omega
      | succ fuel =>
        have hsplit : e.chars = a ++ b.take (n + 1) ++ b.drop (n + 1) := by
          rw [hchars, List.append_assoc, List.take_append_drop]
        have hlen : (b.take (n + 1)).length = min (n + 1) b.length := List.length_take
        have hstart : skipEnd r e.addr a.length iter = some (e.addr, a.length) := by
          have hne : a.length ≠ e.chars.length := by
            rw [hchars, List.length_append]
            omega
          rw [skipEnd, hr.toLayout.first, Option.bind_eq_bind, Option.bind_some, if_neg hne]
        obtain ⟨r₁, hround, hr₁, hnum, -⟩ := delRound_trim (n := n + 1) hr hsplit hpt.above_of_snoc
          (hpt.valid hr'.toLayout (by simp))
          (by
            rcases ha with ha | rfl
            · simp [ha]
            · exact fun h => absurd hr.toLayout.tail_addr.1 h)
          (by rw [hlen, hchars, List.length_append, Nat.add_sub_cancel_left])
        rw [hlen] at hround hr₁
        refine ⟨⟨_, hr⟩, e.addr, e.addr, a.length, r₁, _, _, rfl, hstart, hround, ?_⟩
        -- either the deletion ends inside this node, or it takes the rest of it and goes on
        by_cases hle' : n + 1 ≤ b.length
        · rw [Nat.sub_eq_zero_of_le hle', dropLeaves_zero hlater, Nat.min_eq_left hle', Nat.sub_self]
          rw [Nat.min_eq_left hle'] at hr₁
          exact delAlong_zero ⟨hr₁, hnum⟩
        · have hmin : min (n + 1) b.length = b.length := Nat.min_eq_right (by omega)
          have hcut := Leaf.cut_eq (l := e) (a := a) (m := b) (b := []) (by simpa using hchars)
          rw [hmin] at hr₁ ⊢
          have hcchars : (e.cut a.length b.length).chars.length = a.length := by
            rw [hcut]
            simp
          have hpt' : PointsAt iter (xs ++ [e.cut a.length b.length]) := hpt.resize rfl rfl
          have hr₁' : Holds r₁ H ((xs ++ [e.cut a.length b.length]) ++ ys) :=
            List.append_cons xs _ ys ▸ hr₁
          have hrest := (ropeDelLoop_next (n := n + 1 - b.length) hr₁' (by simp) hpt' (by omega)
            (show ys.length ≤ fuel by omega)).of_next hr₁ hzero (by omega)
          rw [hcchars] at hrest
          refine hrest.mono fun r' h => ?_
          rw [List.append_cons]
          exact ⟨h.1, h.2.trans hnum⟩

theorem ropeDelAtIter_along {e : Leaf} (hr : Repr r H (xs ++ e :: ys)) (hchars : e.chars = a ++ b)
    (ha : a ≠ [] ∨ xs = []) (hzero : iter 0 = ⟨a.length, some e.addr⟩)
    (hit : IterAt iter (xs ++ [{ e with chars := a }])) {n : ℕ} (hn : n ≤ (b ++ text ys).length) :
    DelAlong (fun r => ∃ ls, Holds r H ls)
      (fun r' => Repr r' H (xs ++ e.cut a.length (min n b.length) :: dropLeaves (n - b.length) ys))
      (r.brk + 1) { r with numChars := r.numChars - n } (some e.addr) (iter 0).skip iter n := by
  have hlen := hr.length_le_brk
  simp only [List.length_append, List.length_cons] at hlen
  have hholds : Holds { r with numChars := r.numChars - n } H (xs ++ e :: ys) :=
    ⟨hr.toLayout.congr rfl rfl rfl, hr.dead, hr.numBytes⟩
  rw [hzero]
  refine (ropeDelLoop_spec hholds hchars ha (by rw [hzero]) (hit.pointsAt.resize rfl rfl) hn
    (show ys.length < r.brk + 1 by omega)).mono fun r' h => h.1.repr ?_
  have hold := hr.numChars
  simp only [text_append, text_cons, List.length_append, hchars] at hold hn
  simp only [h.2, text_append, text_cons, text_dropLeaves, List.length_append, List.length_drop,
    Leaf.cut, hchars, List.length_take]
  omega

end Loop

theorem ropeDel_along {r : Rope} {H : ℕ} {ls : List Leaf} (hr : Repr r H ls) (pos length : ℕ) :
    ∃ pre e post a b iter, At ls (min pos (text ls).length) pre e post a b ∧
      iterAtCharPos r (min pos r.numChars) = some (e.addr, iter) ∧
      min length (r.numChars - min pos r.numChars) = min length (b ++ text post).length ∧
      DelAlong (fun r => ∃ ls, Holds r H ls)
        (fun r' => Repr r' H (pre ++ e.cut a.length (min (min length (b ++ text post).length) b.length) ::
          dropLeaves (min length (b ++ text post).length - b.length) post))
        (r.brk + 1) { r with numChars := r.numChars - min length (b ++ text post).length } (some e.addr)
        (iter 0).skip iter (min length (b ++ text post).length) := by
  obtain ⟨pre, e, post, a, b, iter, rfl, hchars, hlen, ha, hiter, hzero, hit⟩ :=
    iterAtCharPos_spec hr (min_le_right pos (text ls).length)
  have hrest : (text (pre ++ e :: post)).length - min pos (text (pre ++ e :: post)).length =
      (b ++ text post).length := by
    rw [← hlen]
    simp only [text_append, text_cons, hchars, List.length_append]
    omega
  refine ⟨pre, e, post, a, b, iter, ⟨rfl, hchars, hlen, ha⟩, ?_, ?_,
    ropeDelAtIter_along hr hchars ha hzero hit (min_le_right length (b ++ text post).length)⟩
  · rw [hr.numChars]
    exact hiter
  · rw [hr.numChars, hrest]

theorem ropeDel_spec {r : Rope} {H : ℕ} {ls : List Leaf} (hr : Repr r H ls) (pos length : ℕ) :
    ∃ pre e post a b r', At ls (min pos (text ls).length) pre e post a b ∧
      ropeDel r pos length = some r' ∧
      Repr r' H (pre ++ e.cut a.length (min (min length (b ++ text post).length) b.length) ::
        dropLeaves (min length (b ++ text post).length - b.length) post) := by
  obtain ⟨pre, e, post, a, b, iter, hat, hiter, hlength, halong⟩ := ropeDel_along hr pos length
  obtain ⟨r', hrun, hr'⟩ := halong.run
  refine ⟨pre, e, post, a, b, r', hat, ?_, hr'⟩
  simp only [ropeDel, hlength, hiter, Option.bind_eq_bind, Option.bind_some]
  exact hrun

theorem At.cut {ls pre post : List Leaf} {pos n : ℕ} {e : Leaf} {a b : List Utf8Char}
    (h : At ls pos pre e post a b) :
    text (pre ++ e.cut a.length (min n b.length) :: dropLeaves (n - b.length) post) =
      (text ls).take pos ++ (text ls).drop (pos + n) := by
  have hls : text ls = (text pre ++ a) ++ (b ++ text post) := by
    rw [h.leaves]
    simp [h.chars]
  have hsplit : e.chars = a ++ b.take (min n b.length) ++ b.drop (min n b.length) := by
    rw [List.append_assoc, List.take_append_drop, h.chars]
  have hcut := Leaf.cut_eq hsplit
  rw [List.length_take_of_le (min_le_right n b.length)] at hcut
  have hdrop : b.drop (min n b.length) = b.drop n := by
    rcases Nat.le_total n b.length with hn | hn
    · rw [Nat.min_eq_left hn]
    · rw [Nat.min_eq_right hn, List.drop_eq_nil_of_le le_rfl, List.drop_eq_nil_of_le hn]
  rw [hls, ← h.length, List.take_left, List.drop_length_add_append, List.drop_append, text_append,
    text_cons, text_dropLeaves, hcut, hdrop]
  simp

/-- Deleting everything leaves the head alone; its bytes stay in its block. -/
theorem ropeDel_all {r : Rope} {H : ℕ} {h : Leaf} {t : List Leaf} (hr : Repr r H (h :: t)) :
    ∃ r', ropeDel r 0 (ropeCharCount r) = some r' ∧
      Repr r' H [{ h with chars := [], slack := h.bytes ++ h.slack }] := by
  obtain ⟨pre, e, post, a, b, r', hat, hrun, hr'⟩ := ropeDel_spec hr 0 (ropeCharCount r)
  have hzero := hat.length
  rw [Nat.zero_min, List.length_eq_zero_iff, List.append_eq_nil_iff] at hzero
  obtain ⟨-, rfl⟩ := hzero
  obtain rfl : pre = [] := hat.left.resolve_left (by simp)
  obtain ⟨rfl, rfl⟩ := List.cons.inj hat.leaves
  obtain rfl : h.chars = b := hat.chars
  have hcount : min (ropeCharCount r) (h.chars ++ text t).length = (h.chars ++ text t).length := by
    rw [ropeCharCount, hr.numChars, text_cons, Nat.min_self]
  have hcut := Leaf.cut_eq (l := h) (a := []) (m := h.chars) (b := []) (by simp)
  rw [hcount, List.length_append, Nat.add_sub_cancel_left, dropLeaves_all le_rfl,
    Nat.min_eq_right (by omega), hcut] at hr'
  refine ⟨r', hrun, ?_⟩
  simpa [Leaf.bytes] using hr'

end MutantC.Librope
