import MutantC.Librope.RopeLevels

/-! One new node: `insert_at` puts it at the end of the prefix the iterator stands at, raising the
head above it where needed. -/

namespace MutantC.Librope
open CBuffer Iteration SkipList

theorem randomHeightLoop_range (rand : ℕ → ℕ) (fuel height calls : ℕ) (hpos : 0 < height)
    (hlt : height < ropeMaxHeight) :
    0 < (randomHeightLoop rand fuel height calls).1 ∧
      (randomHeightLoop rand fuel height calls).1 < ropeMaxHeight := by
  induction fuel generalizing height calls with
  | zero => exact ⟨hpos, hlt⟩
  | succ fuel ih =>
    rw [randomHeightLoop]
    split_ifs
    · exact ih (height + 1) (calls + 1) (by omega) (by omega)
    · exact ⟨hpos, hlt⟩
    · exact ⟨hpos, hlt⟩

theorem randomHeight_range (rand : ℕ → ℕ) (calls : ℕ) :
    0 < (randomHeight rand calls).1 ∧ (randomHeight rand calls).1 < ropeMaxHeight :=
  randomHeightLoop_range rand _ _ _ (by decide) (by decide)

def raise (H' : ℕ) : List Leaf → List Leaf
  | [] => []
  | l :: ls => { l with height := H' } :: ls

@[simp] theorem text_raise (H' : ℕ) (ls : List Leaf) : text (raise H' ls) = text ls := by
  cases ls <;> rfl

@[simp] theorem ids_towers_raise (H' : ℕ) (ls : List Leaf) :
    ids (towers (raise H' ls)) = ids (towers ls) := by
  cases ls <;> rfl

theorem raise_append {xs : List Leaf} (h : xs ≠ []) (H' : ℕ) (ys : List Leaf) :
    raise H' (xs ++ ys) = raise H' xs ++ ys := by
  cases xs with
  | nil => exact absurd rfl h
  | cons x xs => rfl

theorem raise_ne_nil {xs : List Leaf} (h : xs ≠ []) (H' : ℕ) : raise H' xs ≠ [] := by
  cases xs with
  | nil => exact absurd rfl h
  | cons x xs => exact List.cons_ne_nil _ _

theorem raise_raise (H' H'' : ℕ) (ls : List Leaf) : raise H'' (raise H' ls) = raise H'' ls := by
  cases ls <;> rfl

theorem Layout.tail_addr {r : Rope} {H : ℕ} {h : Leaf} {t : List Leaf} (hr : Layout r H (h :: t)) :
    h.addr = headPtr ∧ h.height = H ∧ ∀ l ∈ t, l.addr ≠ headPtr := by
  obtain ⟨h', t', heq, ha, hh⟩ := hr.rooted
  obtain ⟨rfl, rfl⟩ := List.cons.inj heq
  refine ⟨ha, hh, fun l hl e => ?_⟩
  exact (List.nodup_cons.1 hr.nodup).1 (mem_ids_towers.2 ⟨l, hl, e.trans ha.symm⟩)

theorem Layout.ne_headPtr {r : Rope} {H : ℕ} {xs ys : List Leaf} (hr : Layout r H (xs ++ ys))
    (hxs : xs ≠ []) : ∀ l ∈ ys, l.addr ≠ headPtr := by
  cases xs with
  | nil => exact absurd rfl hxs
  | cons x xs =>
    obtain ⟨-, -, ht⟩ := hr.tail_addr
    exact fun l hl => ht l (List.mem_append_right xs hl)

theorem Layout.chars_ne_right {r : Rope} {H : ℕ} {xs ys : List Leaf} (hr : Layout r H (xs ++ ys))
    (hxs : xs ≠ []) : ∀ l ∈ ys, l.chars ≠ [] :=
  fun l hl => hr.chars_ne l (List.mem_append_right xs hl) (hr.ne_headPtr hxs l hl)

theorem Layout.raise {r r' : Rope} {H H' : ℕ} {ls : List Leaf} {head : RopeNode}
    (hr : Layout r H ls) (hhead : r.nodes headPtr = some head) (hle : H ≤ H')
    (hmax : H' ≤ ropeMaxHeight)
    (hnodes : ∀ q, r'.nodes q =
      if q = headPtr then some { head with height := H' } else r.nodes q)
    (hnexts : ∀ q j, r'.nexts q j =
      if q = headPtr ∧ H ≤ j ∧ j < H' then r.nexts headPtr (H - 1) else r.nexts q j)
    (hbrk : r'.brk = r.brk) : Layout r' H' (raise H' ls) := by
  have hpos := hr.pos
  obtain ⟨h, t, rfl, -, -⟩ := hr.rooted
  obtain ⟨ha, hh, ht⟩ := hr.tail_addr
  obtain rfl : head = h.node := Option.some.inj (hhead.symm.trans (ha ▸ hr.live h List.mem_cons_self))
  have hlt : ∀ l ∈ t, l.height < H := fun l hl => hr.height_lt l (List.mem_cons_of_mem _ hl) (ht l hl)
  refine ⟨⟨_, t, rfl, ha, rfl⟩, hmax, ?_, ?_, ?_, ?_, hr.nodup, ?_, ?_, ?_⟩
  · intro l hl
    rcases List.mem_cons.1 hl with rfl | hl
    · exact hpos.trans_le hle
    · exact hr.height_pos l (List.mem_cons_of_mem _ hl)
  · intro l hl hne
    rcases List.mem_cons.1 hl with rfl | hl
    · exact absurd ha hne
    · exact (hlt l hl).trans_le hle
  · intro l hl hne
    rcases List.mem_cons.1 hl with rfl | hl
    · exact absurd ha hne
    · exact hr.chars_ne l (List.mem_cons_of_mem _ hl) hne
  · intro l hl
    rcases List.mem_cons.1 hl with rfl | hl
    · exact hr.size h List.mem_cons_self
    · exact hr.size l (List.mem_cons_of_mem _ hl)
  · intro l hl
    rcases List.mem_cons.1 hl with rfl | hl
    · rw [hnodes, if_pos ha]
      rfl
    · rw [hnodes, if_neg (ht l hl), hr.live l (List.mem_cons_of_mem _ hl)]
  · intro l hl
    rw [hbrk]
    rcases List.mem_cons.1 hl with rfl | hl
    · exact hr.below h List.mem_cons_self
    · exact hr.below l (List.mem_cons_of_mem _ hl)
  · have hht : h.tower.height = H - 1 + 1 := by
      show h.height = _
      omega
    refine WellLinked.raise hr.linked hht ?_ ?_ ?_ ?_
    · intro u hu
      obtain ⟨l, hl, rfl⟩ := List.mem_map.1 hu
      have := hlt l hl
      show l.height ≤ _
      omega
    · intro i hi
      exact (hnexts _ _).trans (if_neg (by omega))
    · intro i hi hi'
      rw [hnexts, if_pos ⟨ha, by omega, hi'⟩]
      exact congrArg (r.nexts · (H - 1)) ha.symm
    · intro p hp i
      obtain ⟨l, hl, rfl⟩ := mem_ids_towers.1 hp
      rw [hnexts, if_neg fun hc => ht l hl hc.1]

theorem pred_raise {r : Rope} {H H' : ℕ} {xs ys : List Leaf} (hr : Layout r H (xs ++ ys))
    (hxs : xs ≠ []) (hle : H ≤ H') (i : ℕ) :
    pred i (towers (raise H' xs)) =
      if i < H then pred i (towers xs) else if i < H' then pred (H - 1) (towers xs) else none := by
  have hpos := hr.pos
  cases xs with
  | nil => exact absurd rfl hxs
  | cons h t =>
    obtain ⟨ha, hh, ht⟩ := hr.tail_addr
    have hlt : ∀ u ∈ towers t, u.height < H := by
      intro u hu
      obtain ⟨l, hl, rfl⟩ := List.mem_map.1 hu
      exact hr.height_lt l (List.mem_cons_of_mem _ (List.mem_append_left _ hl))
        (ht l (List.mem_append_left _ hl))
    have hheight : h.tower.height = H := hh
    have hheight' : ({ h with height := H' } : Leaf).tower.height = H' := rfl
    have hnone : ∀ j, H - 1 ≤ j → pred j (towers t) = none := fun j hj =>
      pred_eq_none_iff.2 fun u hu => by have := hlt u hu; omega
    rw [Librope.raise, towers_cons, towers_cons]
    by_cases hi : i < H
    · rw [if_pos hi]
      cases hp : pred i (towers t) with
      | some l => rw [pred_cons_of_some hp, pred_cons_of_some hp]
      | none =>
        rw [pred_cons_of_none hp, pred_cons_of_none hp, if_pos (by omega), if_pos (by omega)]
        rfl
    · rw [if_neg hi, pred_cons_of_none (hnone i (by omega)), hheight',
        pred_cons_of_none (hnone (H - 1) le_rfl), if_pos (show H - 1 < h.tower.height by omega)]
      rfl

theorem IterAt.raise {r : Rope} {H H' : ℕ} {xs ys : List Leaf} {iter : RopeIter}
    (hit : IterAt iter xs) (hr : Layout r H (xs ++ ys)) (hxs : xs ≠ []) (hle : H ≤ H') :
    IterAt (fun j => if H ≤ j ∧ j < H' then iter (H - 1) else iter j) (raise H' xs) := by
  intro i d p hp
  rw [pred_raise hr hxs hle] at hp
  split_ifs at hp with h₁ h₂
  · exact (if_neg (by omega)).trans (hit i d p hp)
  · exact (if_pos ⟨by omega, h₂⟩).trans (hit (H - 1) d p hp)

def insertLinks (r : Rope) (iter : RopeIter) (H : ℕ) (new : Ptr) (k c : ℕ) (q : Ptr) (j : ℕ) :
    SkipNode :=
  if j < k then
    if q = new then
      match (iter j).next with
      | some p => ⟨c + (r.nexts p j).skip - (iter j).skip, (r.nexts p j).next⟩
      | none => r.nexts q j
    else if (iter j).next = some q then ⟨(iter j).skip, some new⟩
    else r.nexts q j
  else if j < H ∧ (iter j).next = some q then ⟨(r.nexts q j).skip + c, (r.nexts q j).next⟩
  else r.nexts q j

def advance (iter : RopeIter) (H : ℕ) (new : Ptr) (k c : ℕ) : RopeIter := fun j =>
  if j < k then ⟨c, some new⟩ else if j < H then ⟨(iter j).skip + c, (iter j).next⟩ else iter j

theorem link_shift_eq {r : Rope} {iter : RopeIter} {H : ℕ} {new : Ptr} {node head : RopeNode}
    (hnew : r.nodes new = some node) (hhead : r.nodes headPtr = some head) (hH : head.height = H)
    (hit : IterValid r iter H) (hmax : H ≤ ropeMaxHeight) (hk : node.height ≤ H)
    (hne : ∀ i < node.height, (iter i).next ≠ some new) (c : ℕ) :
    ((linkLevels new node.height c r iter).bind fun s => (s.1.nodes headPtr).bind fun head =>
        shiftLevels node.height head.height c s.1 s.2) =
      some (r.withNexts (insertLinks r iter H new node.height c),
        advance iter H new node.height c) := by
  rw [linkLevels_eq hnew (hit.of_le hk) (hk.trans hmax) hne, Option.bind_some, withNexts_nodes, hhead,
    Option.bind_some, hH, shiftLevels_eq (H := H) ?_ hmax hk]
  · refine congrArg some (Prod.ext ?_ ?_)
    · refine withNexts_congr fun q j => ?_
      unfold insertLinks
      by_cases hj : j < node.height
      · have hj' : ¬ node.height ≤ j := Nat.not_le.2 hj
        exact (if_neg fun h => hj' h.1).trans ((if_pos hj).trans (if_pos hj).symm)
      · simp [hj, Nat.not_lt.1 hj]
    · funext j
      unfold advance
      by_cases hj : j < node.height
      · simp [hj, Nat.not_le.2 hj]
      · simp [hj, Nat.not_lt.1 hj]
  · intro i hi
    by_cases hik : i < node.height
    · exact ⟨c, new, node, if_pos hik, hnew, hik⟩
    · obtain ⟨d, p, n, hiter, hn⟩ := hit i hi
      exact ⟨d, p, n, (if_neg hik).trans hiter, hn⟩

theorem IterAt.advance {iter : RopeIter} {xs : List Leaf} {H : ℕ} (hit : IterAt iter xs)
    (hH : ∀ l ∈ xs, l.height ≤ H) (new : Leaf) :
    IterAt (advance iter H new.addr new.height new.chars.length) (xs ++ [new]) := by
  intro i d p hp
  rw [towers_append, towers_cons, towers_nil, pred_snoc] at hp
  unfold Librope.advance
  by_cases hi : i < new.height
  · rw [if_pos (show i < new.tower.height from hi)] at hp
    obtain ⟨rfl, rfl⟩ := Prod.mk.inj (Option.some.inj hp)
    exact if_pos hi
  · rw [if_neg (show ¬ i < new.tower.height from hi)] at hp
    obtain ⟨⟨d', p'⟩, hp', he⟩ := Option.map_eq_some_iff.1 hp
    obtain ⟨rfl, rfl⟩ := Prod.mk.inj he
    rw [if_neg hi, if_pos (lt_of_pred hH hp'), hit i d' p' hp']
    rfl

theorem IterAt.next_mem {r : Rope} {iter : RopeIter} {xs ys : List Leaf} {H : ℕ}
    (hit : IterAt iter xs) (hr : Layout r H (xs ++ ys)) (hxs : xs ≠ []) {i : ℕ} (hi : i < H) :
    ∃ d p, pred i (towers xs) = some (d, p) ∧ iter i = ⟨d, some p⟩ ∧ p ∈ ids (towers xs) := by
  obtain ⟨d, p, hp⟩ := (hr.rooted.of_append hxs).pred hi
  exact ⟨d, p, hp, hit i d p hp, pred_mem hp⟩

theorem Layout.height_le_left {r : Rope} {H : ℕ} {xs ys : List Leaf} (hr : Layout r H (xs ++ ys)) :
    ∀ l ∈ xs, l.height ≤ H := fun _ hl => hr.height_le_of_mem (List.mem_append_left ys hl)

theorem Layout.disjoint {r : Rope} {H : ℕ} {xs ys : List Leaf} (hr : Layout r H (xs ++ ys)) :
    (ids (towers xs)).Nodup ∧ ∀ p ∈ ids (towers xs), p ∉ ids (towers ys) := by
  have h := hr.nodup
  rw [towers_append, ids_append, List.nodup_append] at h
  exact ⟨h.1, fun p hp hq => h.2.2 p hp p hq rfl⟩

theorem forall_mem_middle {P : Leaf → Prop} {xs ys : List Leaf} {l : Leaf} :
    (∀ m ∈ xs ++ l :: ys, P m) ↔ P l ∧ ∀ m ∈ xs ++ ys, P m := by
  simp only [List.perm_middle.mem_iff, List.forall_mem_cons]

theorem wellLinked_insertLinks {r : Rope} {H : ℕ} {xs ys : List Leaf} {iter : RopeIter} {new : Leaf}
    (hr : Layout r H (xs ++ ys)) (hxs : xs ≠ []) (hit : IterAt iter xs)
    (hheight : new.height < H) (hfresh : new.addr ∉ ids (towers (xs ++ ys))) :
    WellLinked (insertLinks r iter H new.addr new.height new.chars.length)
      (towers (xs ++ new :: ys)) := by
  have hlinked := hr.linked
  obtain ⟨hnd, hdisj⟩ := hr.disjoint
  rw [towers_append] at hlinked hfresh
  rw [ids_append, List.mem_append, not_or] at hfresh
  have hkeep : ∀ j, ∀ q, q ≠ new.addr → (∀ d, pred j (towers xs) ≠ some (d, q)) →
      insertLinks r iter H new.addr new.height new.chars.length q j = r.nexts q j := by
    intro j q hq hno
    unfold insertLinks
    by_cases hj : j < H
    · obtain ⟨d, p, hp, hiter, -⟩ := hit.next_mem hr hxs hj
      have hne : (iter j).next ≠ some q := by
        rw [hiter]
        rintro ⟨⟩
        exact hno d hp
      simp [hq, hne]
    · simp [show ¬ j < new.height by omega, hj]
  rw [towers_append, towers_cons]
  refine hlinked.insert hnd ?_ ?_ ?_ ?_ ?_ ?_
  · intro p hp i
    refine hkeep i p (fun e => hfresh.2 (e ▸ hp)) fun d e => ?_
    exact hdisj p (pred_mem e) hp
  · intro i hi
    obtain ⟨d, p, hp, -⟩ := hit.next_mem hr hxs (Nat.lt_trans hi hheight)
    exact ⟨_, hp⟩
  · intro i hi d p hp
    have hi' : i < new.height := hi
    simp [insertLinks, hi', Leaf.tower, hit i d p hp]
  · intro i hi d p hp
    have hi' : i < new.height := hi
    have hne : p ≠ new.addr := fun e => hfresh.1 (e ▸ pred_mem hp)
    simp [insertLinks, hi', hne, hit i d p hp, Leaf.tower]
  · intro i hi d p hp
    have hi' : ¬ i < new.height := Nat.not_lt.2 hi
    simp [insertLinks, hi', lt_of_pred hr.height_le_left hp, hit i d p hp, Leaf.tower]
  · intro i p hp hno
    exact hkeep i p (fun e => hfresh.1 (e ▸ hp)) hno

theorem Layout.insert {r : Rope} {H : ℕ} {xs ys : List Leaf} {iter : RopeIter} {new : Leaf}
    (hr : Layout r H (xs ++ ys)) (hxs : xs ≠ []) (hit : IterAt iter xs)
    (hpos : 0 < new.height) (hheight : new.height < H) (hchars : new.chars ≠ [])
    (hsize : new.bytes.length + new.slack.length = ropeNodeStrSize)
    (hfresh : new.addr ∉ ids (towers (xs ++ ys))) (hbelow : new.addr < r.brk)
    (hlive : r.nodes new.addr = some new.node) :
    Layout (r.withNexts (insertLinks r iter H new.addr new.height new.chars.length)) H
      (xs ++ new :: ys) := by
  have hcases : ∀ {P : Leaf → Prop}, P new → (∀ l ∈ xs ++ ys, P l) → ∀ l ∈ xs ++ new :: ys, P l :=
    fun hnew hold => forall_mem_middle.2 ⟨hnew, hold⟩
  refine ⟨(hr.rooted.of_append hxs).append _, hr.height_le, hcases hpos hr.height_pos,
    hcases (fun _ => hheight) hr.height_lt, hcases (fun _ => hchars) hr.chars_ne,
    hcases hsize hr.size, ?_, hcases hlive hr.live, hcases hbelow hr.below,
    wellLinked_insertLinks hr hxs hit hheight hfresh⟩
  have hperm : (ids (towers (xs ++ new :: ys))).Perm (new.addr :: ids (towers (xs ++ ys))) := by
    simp only [towers_append, towers_cons, ids_append, ids_cons]
    exact List.perm_middle
  exact hperm.nodup_iff.2 (List.nodup_cons.2 ⟨hfresh, hr.nodup⟩)

section
variable (env : Env)

def stored (r : Rope) (new : Leaf) (rands : ℕ) : Rope :=
  { r with
    nodes := fun q => if q = r.brk then some new.node else r.nodes q
    nexts := fun q => if q = r.brk then env.junkNexts r.brk else r.nexts q
    brk := r.brk + 1
    rands := rands }

theorem Layout.stored {r : Rope} {H : ℕ} {ls : List Leaf} (hr : Layout r H ls) (new : Leaf)
    (rands : ℕ) : Layout (stored env r new rands) H ls := by
  have hne : ∀ l ∈ ls, l.addr ≠ r.brk := fun l hl => Nat.ne_of_lt (hr.below l hl)
  refine ⟨hr.rooted, hr.height_le, hr.height_pos, hr.height_lt, hr.chars_ne, hr.size, hr.nodup,
    fun l hl => (if_neg (hne l hl)).trans (hr.live l hl),
    fun l hl => Nat.lt_succ_of_lt (hr.below l hl), hr.linked.congr ?_⟩
  intro p hp i
  obtain ⟨l, hl, rfl⟩ := mem_ids_towers.1 hp
  exact congrFun (if_neg (hne l hl)) i

theorem Layout.brk_notMem {r : Rope} {H : ℕ} {ls : List Leaf} (hr : Layout r H ls) :
    r.brk ∉ ids (towers ls) := by
  intro h
  obtain ⟨l, hl, he⟩ := mem_ids_towers.1 h
  exact Nat.lt_irrefl _ (he ▸ hr.below l hl)

theorem Layout.brk_ne_headPtr {r : Rope} {H : ℕ} {ls : List Leaf} (hr : Layout r H ls) :
    r.brk ≠ headPtr := by
  obtain ⟨l, t, rfl, ha, -⟩ := hr.rooted
  have hlt := hr.below l List.mem_cons_self
  rw [ha] at hlt
  exact Nat.ne_of_gt hlt

theorem IterAt.next_ne {r : Rope} {H k : ℕ} {xs ys : List Leaf} {iter : RopeIter} {q : Ptr}
    (hit : IterAt iter xs) (hr : Layout r H (xs ++ ys)) (hxs : xs ≠ []) (hk : k ≤ H)
    (hfresh : q ∉ ids (towers (xs ++ ys))) : ∀ i < k, (iter i).next ≠ some q := by
  intro i hi
  obtain ⟨d, p, -, hiter, hp⟩ := hit.next_mem hr hxs (hi.trans_le hk)
  rw [hiter]
  rintro ⟨⟩
  refine hfresh ?_
  rw [towers_append, ids_append]
  exact List.mem_append_left _ hp

theorem insertAt_eq (r : Rope) (iter : RopeIter) {cs : List Utf8Char} {rest : List Byte}
    (hlen : (utf8Bytes cs).length ≤ ropeNodeStrSize) :
    insertAt env r iter (utf8Bytes cs ++ rest) (utf8Bytes cs).length cs.length =
      let draw := randomHeight env.rand r.rands
      let new : Leaf := ⟨r.brk, draw.1, cs, (env.junk r.brk).str.drop (utf8Bytes cs).length⟩
      (growHead draw.1 (stored env r new draw.2) iter).bind fun s =>
        ((linkLevels r.brk draw.1 cs.length s.1 s.2).bind fun s =>
          (s.1.nodes headPtr).bind fun head =>
          shiftLevels draw.1 head.height cs.length s.1 s.2).bind fun s =>
        some ({ s.1 with
          numChars := s.1.numChars + cs.length
          numBytes := s.1.numBytes + (utf8Bytes cs).length }, s.2) := by
  have hjunk := env.length_junk r.brk
  have hcopy : memcpy (env.junk r.brk).str 0 (utf8Bytes cs ++ rest) (utf8Bytes cs).length =
      some (utf8Bytes cs ++ (env.junk r.brk).str.drop (utf8Bytes cs).length) := by
    have h := memcpy_append (p := []) (m := (env.junk r.brk).str.take (utf8Bytes cs).length)
      (q := (env.junk r.brk).str.drop (utf8Bytes cs).length) (s := utf8Bytes cs) (t := rest)
      (List.length_take_of_le (by omega))
    rwa [List.nil_append, List.take_append_drop] at h
  have hstored : ∀ new : Leaf, (fun q => if q = r.brk then some new.node else
      if q = r.brk then some { env.junk r.brk with height := (randomHeight env.rand r.rands).1 }
      else r.nodes q) = fun q => if q = r.brk then some new.node else r.nodes q := by
    intro new
    funext q
    split_ifs <;> rfl
  rw [insertAt]
  simp only [allocNode, if_true, Option.bind_eq_bind, Option.bind_some, hcopy,
    guard_bind (randomHeight_range env.rand r.rands).2, Rope.setNode, stored]
  rw [← hstored ⟨r.brk, (randomHeight env.rand r.rands).1, cs,
    (env.junk r.brk).str.drop (utf8Bytes cs).length⟩]
  simp only [Option.bind_assoc]
  rfl

theorem insertAt_spec {r : Rope} {H : ℕ} {xs ys : List Leaf} {iter : RopeIter}
    {cs : List Utf8Char} (rest : List Byte) (hr : Repr r H (xs ++ ys)) (hxs : xs ≠ [])
    (hit : IterAt iter xs) (hcs : cs ≠ []) (hlen : (utf8Bytes cs).length ≤ ropeNodeStrSize) :
    ∃ r' iter' H' new,
      insertAt env r iter (utf8Bytes cs ++ rest) (utf8Bytes cs).length cs.length = some (r', iter') ∧
      new.chars = cs ∧ new.slack = (env.junk new.addr).str.drop (utf8Bytes cs).length ∧
      new.addr ≠ headPtr ∧ Repr r' H' (raise H' xs ++ new :: ys) ∧
      IterAt iter' (raise H' xs ++ [new]) := by
  obtain ⟨hkpos, hkmax⟩ := randomHeight_range env.rand r.rands
  set k := (randomHeight env.rand r.rands).1 with hk
  set new : Leaf := ⟨r.brk, k, cs, (env.junk r.brk).str.drop (utf8Bytes cs).length⟩ with hnew
  set r₁ := stored env r new (randomHeight env.rand r.rands).2 with hr₁
  have hl₁ : Layout r₁ H (xs ++ ys) := hr.toLayout.stored env new _
  obtain ⟨head, hhead, hH⟩ := hl₁.head_node
  have hpos := hr.pos
  set H' := max H (k + 1) with hH'
  have hmax : H' ≤ ropeMaxHeight := max_le hr.height_le hkmax
  have hfresh : r.brk ∉ ids (towers (xs ++ ys)) := hr.brk_notMem
  have hbrk : r.brk ≠ headPtr := hr.brk_ne_headPtr
  -- the head raised above the new node
  have hgrow := growHead_eq iter hhead hH hpos hkmax
  set r₂ : Rope := { r₁ with
    nodes := fun q => if q = headPtr then some { head with height := H' } else r₁.nodes q
    nexts := fun q j =>
      if q = headPtr ∧ H ≤ j ∧ j < H' then r₁.nexts headPtr (H - 1) else r₁.nexts q j } with hr₂
  set iter₂ : RopeIter := fun j => if H ≤ j ∧ j < H' then iter (H - 1) else iter j with hiter₂
  have hl₂ : Layout r₂ H' (raise H' xs ++ ys) := by
    rw [← raise_append hxs]
    exact hl₁.raise hhead (le_max_left _ _) hmax (fun q => rfl) (fun q j => rfl) rfl
  have hit₂ : IterAt iter₂ (raise H' xs) := hit.raise hl₁ hxs (le_max_left _ _)
  have hxs₂ : raise H' xs ≠ [] := raise_ne_nil hxs H'
  have hfresh₂ : new.addr ∉ ids (towers (raise H' xs ++ ys)) := by
    rw [← raise_append hxs, ids_towers_raise]
    exact hfresh
  have hlive : r₂.nodes new.addr = some new.node := (if_neg hbrk).trans (if_pos rfl)
  have hkH : k < H' := Nat.lt_of_lt_of_le k.lt_succ_self (le_max_right _ _)
  have hnext : ∀ i < k, (iter₂ i).next ≠ some new.addr := hit₂.next_ne hl₂ hxs₂ hkH.le hfresh₂
  -- the links tied in
  have hhead₂ : r₂.nodes headPtr = some { head with height := H' } := by simp [hr₂]
  have hshift := link_shift_eq hlive hhead₂ rfl (hl₂.iterValid hxs₂ hit₂) hmax hkH.le hnext cs.length
  have hsize : new.bytes.length + new.slack.length = ropeNodeStrSize := by
    have hjunk := env.length_junk r.brk
    simp only [Leaf.bytes, hnew, List.length_drop]
    omega
  have hl₃ := hl₂.insert hxs₂ hit₂ hkpos hkH hcs hsize hfresh₂ (Nat.lt_succ_self r.brk) hlive
  set r₃ := r₂.withNexts (insertLinks r₂ iter₂ H' new.addr new.height new.chars.length) with hr₃
  refine ⟨{ r₃ with
      numChars := r.numChars + cs.length
      numBytes := r.numBytes + (utf8Bytes cs).length },
    advance iter₂ H' new.addr new.height new.chars.length, H', new, ?_, rfl, rfl, hbrk, ⟨?_, ?_, ?_, ?_⟩,
    hit₂.advance hl₂.height_le_left new⟩
  · rw [insertAt_eq env r iter hlen]
    simp only [← hk, ← hnew, ← hr₁, hgrow, Option.bind_some]
    rw [show r.brk = new.addr from rfl, show k = new.node.height from rfl, hshift]
    rfl
  · exact ⟨hl₃.rooted, hl₃.height_le, hl₃.height_pos, hl₃.height_lt, hl₃.chars_ne, hl₃.size,
      hl₃.nodup, hl₃.live, hl₃.below, hl₃.linked⟩
  · intro p hp
    simp only [towers_append, towers_cons, ids_append, ids_cons, ids_towers_raise, List.mem_append,
      List.mem_cons, not_or] at hp
    have hdead := hr.dead p (by
      simp only [towers_append, ids_append, List.mem_append, not_or]
      exact ⟨hp.1, hp.2.2⟩)
    have hphead : p ≠ headPtr := by
      rintro rfl
      obtain ⟨n, hn, -⟩ := hr.head_node
      rw [hn] at hdead
      cases hdead
    exact (if_neg hphead).trans ((if_neg hp.2.1).trans hdead)
  · have hold := hr.numChars
    simp only [text_append, List.length_append] at hold
    simp only [text_append, text_raise, text_cons, List.length_append, hold, hnew]
    omega
  · have hold := hr.numBytes
    simp only [text_append, utf8Bytes_append, List.length_append] at hold
    simp only [text_append, text_raise, text_cons, utf8Bytes_append, List.length_append, hold, hnew]
    omega

end

end MutantC.Librope
