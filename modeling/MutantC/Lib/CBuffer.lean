import Mathlib

/-! Blocks of bytes as C code uses them: stores and copies that must stay inside the block, and the
NUL-terminated string at its start. -/

namespace MutantC.CBuffer

abbrev Byte := UInt8

/-- The string at the start of a block, `none` when no terminator lies inside the block. -/
def cstr : List Byte → Option (List Byte)
  | [] => none
  | b :: blk => if b = 0 then some [] else (cstr blk).map (b :: ·)

def strlen (blk : List Byte) : Option ℕ := (cstr blk).map List.length

/-- `rindex` on a string: where its last `c` stands, `none` for NULL. -/
def rindex : List Byte → Byte → Option ℕ
  | [], _ => none
  | b :: s, c =>
    match rindex s c with
    | some i => some (i + 1)
    | none => if b = c then some 0 else none

/-- `strspn`: how many bytes of `accept` the string begins with. -/
def strspn : List Byte → List Byte → ℕ
  | [], _ => 0
  | b :: s, accept => if b ∈ accept then strspn s accept + 1 else 0

def store (blk : List Byte) (i : ℕ) (b : Byte) : Option (List Byte) :=
  if i < blk.length then some (blk.set i b) else none

def writeAt (blk : List Byte) (i : ℕ) (src : List Byte) : Option (List Byte) :=
  if i + src.length ≤ blk.length then some (blk.take i ++ src ++ blk.drop (i + src.length)) else none

def memcpy (blk : List Byte) (i : ℕ) (src : List Byte) (n : ℕ) : Option (List Byte) :=
  if n ≤ src.length then writeAt blk i (src.take n) else none

def memmove (blk : List Byte) (i j n : ℕ) : Option (List Byte) := memcpy blk i (blk.drop j) n

/-- `strncpy`: `n` bytes are written, zeros after the end of the string. -/
def strncpy (blk : List Byte) (i : ℕ) (src : List Byte) (n : ℕ) : Option (List Byte) :=
  writeAt blk i (src.take n ++ List.replicate (n - src.length) 0)

/-- `realloc`: the block keeps its bytes, and new ones are what the allocator left there. -/
def realloc (blk : List Byte) (size : ℕ) (fill : ℕ → Byte) : List Byte :=
  blk.take size ++ (List.range (size - blk.length)).map fill

theorem rindex_eq_none {s : List Byte} {c : Byte} (h : rindex s c = none) : c ∉ s := by
  induction s with
  | nil => exact List.not_mem_nil
  | cons b s ih =>
    rw [rindex] at h
    split at h
    · exact absurd h (Option.some_ne_none _)
    · rename_i hs
      have hb : b ≠ c := by
        rintro rfl
        simp at h
      rw [List.mem_cons, not_or]
      exact ⟨Ne.symm hb, ih hs⟩

theorem rindex_eq_some {s : List Byte} {c : Byte} {i : ℕ} (h : rindex s c = some i) :
    ∃ p q, s = p ++ c :: q ∧ p.length = i ∧ c ∉ q := by
  induction s generalizing i with
  | nil => exact absurd h.symm (Option.some_ne_none i)
  | cons b s ih =>
    rw [rindex] at h
    split at h
    · rename_i j hs
      obtain ⟨p, q, rfl, rfl, hq⟩ := ih hs
      exact ⟨b :: p, q, rfl, Option.some.inj h, hq⟩
    · rename_i hs
      split_ifs at h with hb
      exact ⟨[], s, by rw [hb]; rfl, Option.some.inj h, rindex_eq_none hs⟩

theorem strspn_eq (s accept : List Byte) :
    strspn s accept = (s.takeWhile fun b => b ∈ accept).length := by
  induction s with
  | nil => rfl
  | cons b s ih =>
    rw [strspn, ih]
    by_cases hb : b ∈ accept
    · rw [if_pos hb, List.takeWhile_cons_of_pos (by simpa using hb), List.length_cons]
    · rw [if_neg hb, List.takeWhile_cons_of_neg (by simpa using hb), List.length_nil]

theorem cstr_append_zero (w rest : List Byte) : cstr (w ++ 0 :: rest) = some (w.takeWhile (· ≠ 0)) := by
  induction w with
  | nil => rfl
  | cons b w ih =>
    rw [List.cons_append, cstr, ih]
    by_cases hb : b = 0
    · rw [if_pos hb, List.takeWhile_cons_of_neg (by simpa using hb)]
    · rw [if_neg hb, List.takeWhile_cons_of_pos (by simpa using hb), Option.map_some]

theorem cstr_append {txt : List Byte} (h : 0 ∉ txt) (rest : List Byte) :
    cstr (txt ++ 0 :: rest) = some txt := by
  rw [cstr_append_zero, List.takeWhile_eq_self_iff.2]
  intro b hb
  exact decide_eq_true fun heq => h (heq ▸ hb)

theorem zero_notMem_snoc {txt : List Byte} {c : Byte} (htxt : 0 ∉ txt) (hc : c ≠ 0) : 0 ∉ txt ++ [c] := by
  rw [List.mem_append, List.mem_singleton, not_or]
  exact ⟨htxt, Ne.symm hc⟩

theorem cstr_some {blk txt : List Byte} (h : cstr blk = some txt) :
    0 ∉ txt ∧ ∃ rest, blk = txt ++ 0 :: rest := by
  induction blk generalizing txt with
  | nil => simp [cstr] at h
  | cons b blk ih =>
    rw [cstr] at h
    split_ifs at h with hb
    · obtain rfl := Option.some.inj h
      exact ⟨by simp, blk, by rw [hb]; rfl⟩
    · obtain ⟨tail, htail, rfl⟩ := Option.map_eq_some_iff.1 h
      obtain ⟨hnot, rest, rfl⟩ := ih htail
      exact ⟨by simp [hnot, Ne.symm hb], rest, rfl⟩

theorem writeAt_append {p m q s : List Byte} (h : m.length = s.length) :
    writeAt (p ++ m ++ q) p.length s = some (p ++ s ++ q) := by
  rw [writeAt, if_pos (by simp; omega), ← h, ← List.length_append, List.drop_left,
    List.append_assoc p m q, List.take_left]

theorem memcpy_append {p m q s t : List Byte} (h : m.length = s.length) :
    memcpy (p ++ m ++ q) p.length (s ++ t) s.length = some (p ++ s ++ q) := by
  rw [memcpy, if_pos (by simp), List.take_left, writeAt_append h]

theorem memcpy_memmove (A B : List Byte) {S C : List Byte} (h : C.length ≤ S.length) :
    ((memmove (A ++ B ++ S) (A.length + C.length) A.length B.length).bind fun blk =>
      memcpy blk A.length C C.length) = some (A ++ C ++ B ++ S.drop C.length) := by
  have hgap : ∃ G, G.length = C.length ∧ (A ++ B ++ S).take (A.length + C.length) = A ++ G := by
    refine ⟨(B ++ S).take C.length, List.length_take_of_le ?_, ?_⟩
    · rw [List.length_append]
      omega
    · rw [List.append_assoc, List.take_length_add_append]
  obtain ⟨G, hG, htake⟩ := hgap
  have hdrop : (A ++ B ++ S).drop (A.length + C.length + B.length) = S.drop C.length := by
    rw [show A.length + C.length + B.length = (A ++ B).length + C.length by simp; omega,
      List.drop_length_add_append]
  have hmove : memmove (A ++ B ++ S) (A.length + C.length) A.length B.length =
      some (A ++ G ++ B ++ S.drop C.length) := by
    rw [memmove, memcpy, if_pos (by simp), List.append_assoc A B S, List.drop_left,
      List.take_left, ← List.append_assoc A B S, writeAt, if_pos (by simp; omega), htake, hdrop]
  rw [hmove, Option.bind_some]
  have hcopy := memcpy_append (p := A) (q := B ++ S.drop C.length) (s := C) (t := []) hG
  simpa [List.append_assoc] using hcopy

theorem memmove_close (A M B S : List Byte) :
    memmove (A ++ M ++ B ++ S) A.length (A.length + M.length) B.length =
      some (A ++ B ++ (M ++ B ++ S).drop B.length) := by
  have hdrop : (A ++ M ++ B ++ S).drop (A.length + M.length) = B ++ S := by
    rw [← List.length_append, List.append_assoc (A ++ M), List.drop_left]
  have hcopy := memcpy_append (p := A) (m := (M ++ B ++ S).take B.length)
    (q := (M ++ B ++ S).drop B.length) (s := B) (t := S)
    (List.length_take_of_le (by simp only [List.length_append]; omega))
  rw [List.append_assoc A, List.take_append_drop] at hcopy
  rw [memmove, hdrop, ← hcopy]
  simp

theorem strncpy_some_iff {blk src : List Byte} {i n : ℕ} :
    (∃ blk', strncpy blk i src n = some blk') ↔ i + n ≤ blk.length := by
  have hlen : (src.take n ++ List.replicate (n - src.length) 0).length = n := by
    rw [List.length_append, List.length_take, List.length_replicate]
    omega
  rw [strncpy, writeAt, hlen]
  split_ifs with hroom
  · exact iff_of_true ⟨_, rfl⟩ hroom
  · exact iff_of_false (fun h => by obtain ⟨blk', h⟩ := h; cases h) hroom

theorem strlen_eq {blk txt : List Byte} (h : cstr blk = some txt) : strlen blk = some txt.length := by
  rw [strlen, h, Option.map_some]

theorem length_realloc (blk : List Byte) (size : ℕ) (fill : ℕ → Byte) :
    (realloc blk size fill).length = size := by
  simp only [realloc, List.length_append, List.length_take, List.length_map, List.length_range]
  omega

theorem cstr_set_zero {blk txt : List Byte} (h : cstr blk = some txt) (i : ℕ) :
    cstr (blk.set i 0) = some (txt.take i) := by
  obtain ⟨hzero, rest, rfl⟩ := cstr_some h
  rcases lt_or_ge i txt.length with hlt | hge
  · rw [List.set_append_left i 0 hlt, List.set_eq_take_append_cons_drop, if_pos hlt, List.append_assoc]
    exact cstr_append (fun hmem => hzero (List.mem_of_mem_take hmem)) _
  · rw [List.set_append_right i 0 hge, List.take_of_length_le hge]
    cases i - txt.length with
    | zero => exact h
    | succ k => exact cstr_append hzero _

theorem store_zero {blk txt : List Byte} (h : cstr blk = some txt) {i : ℕ} (hi : i < txt.length) :
    ∃ blk', store blk i 0 = some blk' ∧ cstr blk' = some (txt.take i) := by
  have hlt : i < blk.length := by
    obtain ⟨-, rest, rfl⟩ := cstr_some h
    rw [List.length_append]
    omega
  exact ⟨blk.set i 0, if_pos hlt, cstr_set_zero h i⟩

theorem cstr_set_after {blk txt : List Byte} (h : cstr blk = some txt) {i : ℕ} (hi : txt.length < i)
    (b : Byte) : cstr (blk.set i b) = some txt := by
  obtain ⟨hzero, rest, rfl⟩ := cstr_some h
  obtain ⟨k, rfl⟩ := Nat.exists_eq_add_of_lt hi
  rw [List.set_append_right _ _ (by omega), show txt.length + k + 1 - txt.length = k + 1 by omega]
  exact cstr_append hzero _

theorem cstr_realloc {blk txt : List Byte} (h : cstr blk = some txt) {n : ℕ} (hn : txt.length < n)
    (fill : ℕ → Byte) : cstr (realloc blk n fill) = some txt := by
  obtain ⟨hzero, rest, rfl⟩ := cstr_some h
  obtain ⟨k, rfl⟩ := Nat.exists_eq_add_of_lt hn
  rw [realloc, show txt.length + k + 1 = txt.length + (k + 1) by omega, List.take_length_add_append,
    List.take_succ_cons, List.append_assoc, List.cons_append]
  exact cstr_append hzero _

theorem store_realloc {blk : List Byte} {n : ℕ} (hn : n ≤ blk.length) (fill : ℕ → Byte) (c : Byte) :
    ((store (realloc blk (n + 2) fill) n c).bind fun blk => store blk (n + 1) 0) =
      some (blk.take n ++ [c, 0]) := by
  have hlen := length_realloc blk (n + 2) fill
  have htake : (realloc blk (n + 2) fill).take n = blk.take n := by
    rw [realloc, List.take_append_of_le_length (by rw [List.length_take]; omega), List.take_take,
      Nat.min_eq_left (by omega)]
  obtain ⟨x, y, hxy⟩ : ∃ x y, (realloc blk (n + 2) fill).drop n = [x, y] := by
    apply List.length_eq_two.1
    rw [List.length_drop, hlen, Nat.add_sub_cancel_left]
  have hsplit : realloc blk (n + 2) fill = blk.take n ++ [x, y] := by
    rw [← htake, ← hxy, List.take_append_drop]
  have hpre : (blk.take n).length = n := List.length_take_of_le hn
  rw [store, if_pos (by omega), hsplit, Option.bind_some, List.set_append_right _ _ (by omega), hpre,
    Nat.sub_self, List.set_cons_zero, store, if_pos (by simp [hpre]),
    List.set_append_right _ _ (by omega), hpre, Nat.add_sub_cancel_left]
  rfl

end MutantC.CBuffer
