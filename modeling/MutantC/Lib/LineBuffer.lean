import Mathlib

/-! A line of symbols with a cursor in it, and what the four editing keys mean on it. -/

namespace MutantC.LineBuffer

structure Line (α : Type*) where
  text : List α
  cursor : ℕ
  cursor_le : cursor ≤ text.length

section
variable {α : Type*} (l : Line α)

def empty : Line α := ⟨[], 0, le_rfl⟩

def insert (x : α) : Line α :=
  ⟨l.text.insertIdx l.cursor x, l.cursor + 1, by
    rw [List.length_insertIdx_of_le_length l.cursor_le]
    exact Nat.succ_le_succ l.cursor_le⟩

def backspace : Line α :=
  if h : 0 < l.cursor then
    ⟨l.text.eraseIdx (l.cursor - 1), l.cursor - 1, by
      rw [List.length_eraseIdx_of_lt (lt_of_lt_of_le (Nat.sub_one_lt h.ne') l.cursor_le)]
      exact Nat.sub_le_sub_right l.cursor_le 1⟩
  else l

def left : Line α := ⟨l.text, l.cursor - 1, le_trans (Nat.sub_le _ _) l.cursor_le⟩

def right : Line α := ⟨l.text, min (l.cursor + 1) l.text.length, Nat.min_le_right _ _⟩

variable {l}

@[simp] theorem insert_text (x : α) : (insert l x).text = l.text.insertIdx l.cursor x := rfl

theorem insert_text_end (h : l.cursor = l.text.length) (x : α) :
    (insert l x).text = l.text ++ [x] := by
  rw [insert_text, h, List.insertIdx_length_self]

theorem length_insert (l : Line α) (x : α) : (insert l x).text.length = l.text.length + 1 :=
  List.length_insertIdx_of_le_length l.cursor_le x

theorem backspace_start (h : l.cursor = 0) : backspace l = l := dif_neg (by simp [h])

theorem backspace_cursor (h : 0 < l.cursor) : (backspace l).cursor = l.cursor - 1 := by
  unfold backspace
  rw [dif_pos h]

theorem backspace_text (h : 0 < l.cursor) :
    (backspace l).text = l.text.take (l.cursor - 1) ++ l.text.drop l.cursor := by
  have herase : (backspace l).text = l.text.eraseIdx (l.cursor - 1) := by
    unfold backspace
    rw [dif_pos h]
  rw [herase, List.eraseIdx_eq_take_drop_succ, Nat.sub_add_cancel h]

/-- The text before the cursor less its last symbol is what is left exactly at the end. -/
theorem backspace_text_eq_take_iff (h : 0 < l.cursor) :
    l.text.take (l.cursor - 1) = (backspace l).text ↔ l.cursor = l.text.length := by
  rw [backspace_text h, List.self_eq_append_right, List.drop_eq_nil_iff]
  exact ⟨fun hle => le_antisymm l.cursor_le hle, fun heq => heq.ge⟩

theorem right_end (h : l.cursor = l.text.length) : (right l).cursor = l.text.length :=
  Nat.min_eq_right (by omega)

theorem right_inside (h : l.cursor < l.text.length) : (right l).cursor = l.cursor + 1 :=
  Nat.min_eq_left h

end

end MutantC.LineBuffer
