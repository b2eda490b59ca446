import MutantC.Lib.CBuffer

/-! Tries over bytes whose inner nodes have an extent of bytes with children. A trie is told by what a
string of bytes leads to from its root. -/

namespace MutantC.Tries
open CBuffer

variable {V : Type*}

/-- `kids i` is the child for the byte `min + i`; `null` is no node. -/
inductive Trie (V : Type*)
  | null
  | leaf (v : V)
  | arr (min max : Byte) (kids : ℕ → Trie V)

/-- What stands at the end of a path: nothing, an inner node, or a value. -/
inductive Place (V : Type*)
  | off
  | inside
  | value (v : V)
deriving DecidableEq

namespace Trie

def child : Trie V → Byte → Trie V
  | arr min max kids, b => if b < min ∨ max < b then null else kids (b.toNat - min.toNat)
  | _, _ => null

def place : Trie V → Place V
  | null => .off
  | leaf v => .value v
  | arr _ _ _ => .inside

@[simp] theorem child_null (b : Byte) : (null : Trie V).child b = null := rfl

@[simp] theorem child_leaf (v : V) (b : Byte) : (leaf v).child b = null := rfl

@[simp] theorem place_null : (null : Trie V).place = .off := rfl

def lookup : Trie V → List Byte → Place V
  | t, [] => t.place
  | t, b :: s => (t.child b).lookup s

@[simp] theorem lookup_nil (t : Trie V) : t.lookup [] = t.place := rfl

@[simp] theorem lookup_cons (t : Trie V) (b : Byte) (s : List Byte) : t.lookup (b :: s) = (t.child b).lookup s := rfl

@[simp] theorem lookup_null (s : List Byte) : (null : Trie V).lookup s = .off := by
  induction s with
  | nil => rfl
  | cons b s ih => exact ih

end Trie

/-- What a set of strings with values says of a string: it has a value, it is the beginning of one that
has, or neither. The empty string is always the beginning of one. -/
structure Represents (t : Trie V) (table : List (List Byte × V)) : Prop where
  value : ∀ w v, t.lookup w = .value v ↔ (w, v) ∈ table
  inside : ∀ w, t.lookup w = .inside ↔ w = [] ∨ ∃ u v, (w ++ u, v) ∈ table ∧ u ≠ []

/-- `t'` has one string more than `t`, and its beginnings. -/
def Extended [DecidableEq V] (t t' : Trie V) (seq : List Byte) (v : V) : Prop :=
  ∀ w, t'.lookup w = if w = seq then .value v else if w <+: seq ∧ t.lookup w = .off then .inside else t.lookup w

variable {t t' : Trie V} {table : List (List Byte × V)} {seq : List Byte} {v : V}

theorem Represents.congr (h : Represents t table) (heq : ∀ w, t'.lookup w = t.lookup w) : Represents t' table where
  value w v := by rw [heq, h.value]
  inside w := by rw [heq, h.inside]

theorem Represents.prefix_ne_off (h : Represents t table) {s w : List Byte} (hmem : (s, v) ∈ table)
    (hpre : w <+: s) : t.lookup w ≠ .off := by
  obtain ⟨u, rfl⟩ := hpre
  by_cases hu : u = []
  · rw [hu, List.append_nil] at hmem
    rw [(h.value w v).2 hmem]
    simp
  · rw [(h.inside w).2 (Or.inr ⟨u, v, hmem, hu⟩)]
    simp

theorem off_or_inside (hfree : ∀ u x, u <+: seq → t.lookup u ≠ .value x) {w : List Byte} (hw : w <+: seq) :
    t.lookup w = .off ∨ t.lookup w = .inside := by
  cases hplace : t.lookup w with
  | off => exact Or.inl rfl
  | inside => exact Or.inr rfl
  | value x => exact absurd hplace (hfree w x hw)

theorem Represents.extended [DecidableEq V] (h : Represents t table) (hoff : t.lookup seq = .off)
    (hfree : ∀ u x, u <+: seq → t.lookup u ≠ .value x) (hext : Extended t t' seq v) :
    Represents t' (table ++ [(seq, v)]) where
  value w x := by
    rw [hext w, List.mem_append, List.mem_singleton, Prod.mk_inj]
    split_ifs with hw hpre
    · constructor
      · intro heq
        cases heq
        exact Or.inr ⟨hw, rfl⟩
      · rintro (hmem | ⟨-, rfl⟩)
        · rw [hw, ← h.value, hoff] at hmem
          cases hmem
        · rfl
    · constructor
      · intro heq
        cases heq
      · rintro (hmem | ⟨heq, -⟩)
        · rw [← h.value, hpre.2] at hmem
          cases hmem
        · exact absurd heq hw
    · rw [h.value]
      exact ⟨Or.inl, fun hor => hor.resolve_right fun heq => hw heq.1⟩
  inside w := by
    rw [hext w]
    have hadd : (∃ u x, (w ++ u, x) ∈ table ++ [(seq, v)] ∧ u ≠ []) ↔
        (∃ u x, (w ++ u, x) ∈ table ∧ u ≠ []) ∨ (w <+: seq ∧ w ≠ seq) := by
      constructor
      · rintro ⟨u, x, hmem, hu⟩
        rw [List.mem_append, List.mem_singleton, Prod.mk_inj] at hmem
        rcases hmem with hmem | ⟨heq, -⟩
        · exact Or.inl ⟨u, x, hmem, hu⟩
        · refine Or.inr ⟨⟨u, heq⟩, fun hw => hu ?_⟩
          rw [hw] at heq
          exact List.append_right_eq_self.1 heq
      · rintro (⟨u, x, hmem, hu⟩ | ⟨⟨u, heq⟩, hw⟩)
        · exact ⟨u, x, List.mem_append_left _ hmem, hu⟩
        · refine ⟨u, v, by rw [heq]; simp, fun hu => hw ?_⟩
          rw [hu, List.append_nil] at heq
          exact heq
    rw [hadd]
    split_ifs with hw hpre
    · constructor
      · intro heq
        cases heq
      · rintro (hnil | hor | ⟨-, hne⟩)
        · have hroot := (h.inside w).2 (Or.inl hnil)
          rw [hw, hoff] at hroot
          cases hroot
        · have hin := (h.inside w).2 (Or.inr hor)
          rw [hw, hoff] at hin
          cases hin
        · exact absurd hw hne
    · exact iff_of_true rfl (Or.inr (Or.inr ⟨hpre.1, hw⟩))
    · rw [h.inside]
      constructor
      · rintro (hnil | hor)
        · exact Or.inl hnil
        · exact Or.inr (Or.inl hor)
      · rintro (hnil | hor | ⟨hpre', -⟩)
        · exact Or.inl hnil
        · exact Or.inr hor
        · rcases off_or_inside hfree hpre' with hw' | hw'
          · exact absurd ⟨hpre', hw'⟩ hpre
          · exact (h.inside w).1 hw'

end MutantC.Tries
