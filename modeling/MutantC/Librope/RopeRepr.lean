import MutantC.Librope.RopeDefs

/-! What a rope in memory represents: a list of leaves, the head first, whose towers the links of
the rope tie together. -/

namespace MutantC.Librope
open CBuffer Iteration SkipList

/-- A node as the list sees it; `slack` is what `str` holds past the first `numBytes` bytes. -/
structure Leaf where
  addr : Ptr
  height : ℕ
  chars : List Utf8Char
  slack : List Byte

namespace Leaf

def bytes (l : Leaf) : List Byte := utf8Bytes l.chars

def node (l : Leaf) : RopeNode := ⟨l.bytes ++ l.slack, l.bytes.length, l.height⟩

def tower (l : Leaf) : Tower Ptr := ⟨l.addr, l.height, l.chars.length⟩

end Leaf

def towers (ls : List Leaf) : List (Tower Ptr) := ls.map Leaf.tower

def text (ls : List Leaf) : List Utf8Char := ls.flatMap Leaf.chars

@[simp] theorem towers_nil : towers [] = [] := rfl

@[simp] theorem towers_cons (l : Leaf) (ls : List Leaf) : towers (l :: ls) = l.tower :: towers ls := rfl

@[simp] theorem towers_append (xs ys : List Leaf) : towers (xs ++ ys) = towers xs ++ towers ys :=
  List.map_append

@[simp] theorem text_nil : text [] = [] := rfl

@[simp] theorem text_cons (l : Leaf) (ls : List Leaf) : text (l :: ls) = l.chars ++ text ls := rfl

@[simp] theorem text_append (xs ys : List Leaf) : text (xs ++ ys) = text xs ++ text ys :=
  List.flatMap_append

theorem spans_towers (ls : List Leaf) : spans (towers ls) = (text ls).length := by
  induction ls with
  | nil => rfl
  | cons l ls ih => simp [ih, Leaf.tower]

def Rooted (H : ℕ) (ls : List Leaf) : Prop := ∃ h t, ls = h :: t ∧ h.addr = headPtr ∧ h.height = H

theorem Rooted.append {H : ℕ} {xs : List Leaf} (h : Rooted H xs) (ys : List Leaf) :
    Rooted H (xs ++ ys) := by
  obtain ⟨l, t, rfl, hl⟩ := h
  exact ⟨l, t ++ ys, rfl, hl⟩

theorem Rooted.of_append {H : ℕ} {xs ys : List Leaf} (h : Rooted H (xs ++ ys)) (hxs : xs ≠ []) :
    Rooted H xs := by
  obtain ⟨l, t, heq, hl⟩ := h
  cases xs with
  | nil => exact absurd rfl hxs
  | cons x xs =>
    obtain ⟨rfl, -⟩ := List.cons.inj heq
    exact ⟨x, xs, rfl, hl⟩

theorem Rooted.pred {H : ℕ} {ls : List Leaf} (h : Rooted H ls) {i : ℕ} (hi : i < H) :
    ∃ d p, pred i (towers ls) = some (d, p) := by
  obtain ⟨l, t, rfl, -, rfl⟩ := h
  obtain ⟨⟨d, p⟩, hp⟩ := pred_isSome (show ∃ u ∈ towers (l :: t), i < u.height from
    ⟨l.tower, by simp, hi⟩)
  exact ⟨d, p, hp⟩

/-- The blocks of the rope hold the leaves and its links tie them together. -/
structure Layout (r : Rope) (H : ℕ) (ls : List Leaf) : Prop where
  rooted : Rooted H ls
  height_le : H ≤ ropeMaxHeight
  height_pos : ∀ l ∈ ls, 0 < l.height
  height_lt : ∀ l ∈ ls, l.addr ≠ headPtr → l.height < H
  chars_ne : ∀ l ∈ ls, l.addr ≠ headPtr → l.chars ≠ []
  size : ∀ l ∈ ls, l.bytes.length + l.slack.length = ropeNodeStrSize
  nodup : (ids (towers ls)).Nodup
  live : ∀ l ∈ ls, r.nodes l.addr = some l.node
  below : ∀ l ∈ ls, l.addr < r.brk
  linked : WellLinked r.nexts (towers ls)

/-- The rope holds exactly these leaves, and its totals are theirs. -/
structure Repr (r : Rope) (H : ℕ) (ls : List Leaf) : Prop extends Layout r H ls where
  dead : ∀ p, p ∉ ids (towers ls) → r.nodes p = none
  numChars : r.numChars = (text ls).length
  numBytes : r.numBytes = (utf8Bytes (text ls)).length

/-- The iterator points at the end of the prefix `xs`: at every level it names the tower of `xs`
last seen there and the distance from its start. -/
def IterAt (iter : RopeIter) (xs : List Leaf) : Prop :=
  ∀ i d p, pred i (towers xs) = some (d, p) → iter i = ⟨d, some p⟩

theorem getNext_eq {r : Rope} {p : Ptr} {n : RopeNode} (h : r.nodes p = some n) {i : ℕ}
    (hi : i < n.height) : r.getNext p i = some (r.nexts p i) := by
  rw [Rope.getNext, h, Option.bind_some, if_pos hi]

theorem setNext_eq {r : Rope} {p : Ptr} {n : RopeNode} (h : r.nodes p = some n) {i : ℕ}
    (hi : i < n.height) (s : SkipNode) :
    r.setNext p i s =
      some { r with nexts := fun q j => if q = p ∧ j = i then s else r.nexts q j } := by
  rw [Rope.setNext, h, Option.bind_some, if_pos hi]

theorem mem_ids_towers {p : Ptr} {ls : List Leaf} :
    p ∈ ids (towers ls) ↔ ∃ l ∈ ls, l.addr = p := by
  simp [ids, towers, Leaf.tower]

theorem lt_of_pred {ls : List Leaf} {H : ℕ} (hH : ∀ l ∈ ls, l.height ≤ H) {i d : ℕ} {p : Ptr}
    (hp : pred i (towers ls) = some (d, p)) : i < H := by
  obtain ⟨u, hu, -, hiu⟩ := exists_tower_of_pred hp
  obtain ⟨l, hl, rfl⟩ := List.mem_map.1 hu
  exact Nat.lt_of_lt_of_le hiu (hH l hl)

namespace Layout
variable {r : Rope} {H : ℕ} {ls : List Leaf}

theorem pos (h : Layout r H ls) : 0 < H := by
  obtain ⟨l, t, rfl, -, rfl⟩ := h.rooted
  exact h.height_pos l List.mem_cons_self

theorem height_le_of_mem (h : Layout r H ls) {l : Leaf} (hl : l ∈ ls) : l.height ≤ H := by
  by_cases hhead : l.addr = headPtr
  · obtain ⟨l₀, t, rfl, ha, rfl⟩ := h.rooted
    rcases List.mem_cons.1 hl with rfl | hl
    · exact le_rfl
    · have hnot := (List.nodup_cons.1 h.nodup).1
      exact absurd (mem_ids_towers.2 ⟨l, hl, hhead.trans ha.symm⟩) hnot
  · exact (h.height_lt l hl hhead).le

theorem head_node (h : Layout r H ls) : ∃ n, r.nodes headPtr = some n ∧ n.height = H := by
  obtain ⟨l, t, rfl, ha, hh⟩ := h.rooted
  exact ⟨l.node, ha ▸ h.live l List.mem_cons_self, hh⟩

theorem length_le_brk (h : Layout r H ls) : ls.length ≤ r.brk := by
  have hsub : ids (towers ls) ⊆ List.range r.brk := by
    intro p hp
    obtain ⟨l, hl, rfl⟩ := mem_ids_towers.1 hp
    exact List.mem_range.2 (h.below l hl)
  have hlen := (List.subperm_of_subset h.nodup hsub).length_le
  simpa [ids, towers] using hlen

theorem iter_valid {xs ys : List Leaf} (h : Layout r H (xs ++ ys)) (hxs : xs ≠ [])
    {iter : RopeIter} (hit : IterAt iter xs) {i : ℕ} (hi : i < H) :
    ∃ d p n, iter i = ⟨d, some p⟩ ∧ r.nodes p = some n ∧ i < n.height := by
  obtain ⟨d, p, hp⟩ := (h.rooted.of_append hxs).pred hi
  obtain ⟨t, ht, rfl, hit'⟩ := exists_tower_of_pred hp
  obtain ⟨l, hl, rfl⟩ := List.mem_map.1 ht
  exact ⟨d, l.addr, l.node, hit i d _ hp, h.live l (List.mem_append_left ys hl), hit'⟩

end Layout

end MutantC.Librope
