import MutantC.Lib.Decimal

/-! A terminal that understands carriage return, line feed, backspace and the sequences `CSI n A`,
`CSI n C` and `CSI 0 K`, with as many rows and columns as are written to, and no scrolling. -/

namespace MutantC.AnsiScreen
open CBuffer Decimal

/-- How much of an escape sequence has been read, with its number so far. -/
inductive Mode
  | ground
  | escape
  | csi (n : ℕ)
deriving DecidableEq

@[ext]
structure Terminal where
  cell : ℕ → ℕ → Byte
  row : ℕ
  col : ℕ
  mode : Mode

def blank : Byte := 32

def IsPrintable (b : Byte) : Prop := 32 ≤ b ∧ b ≤ 126

instance : DecidablePred IsPrintable := fun b => inferInstanceAs (Decidable (32 ≤ b ∧ b ≤ 126))

theorem isPrintable_blank : IsPrintable blank := by decide

def overlay (r : ℕ → Byte) (c : ℕ) (txt : List Byte) : ℕ → Byte :=
  fun j => if c ≤ j then txt.getD (j - c) (r j) else r j

def Reads (r : ℕ → Byte) (txt : List Byte) : Prop := ∀ j, r j = txt.getD j blank

section Rows
variable {r : ℕ → Byte} {c : ℕ} {txt : List Byte}

theorem overlay_nil : overlay r c [] = r := by
  funext j
  rw [overlay, List.getD_nil, ite_self]

theorem overlay_cons (b : Byte) : overlay (overlay r c [b]) (c + 1) txt = overlay r c (b :: txt) := by
  funext j
  unfold overlay
  rcases lt_trichotomy j c with hlt | rfl | hgt
  · rw [if_neg (by omega), if_neg (by omega), if_neg (by omega)]
  · rw [if_neg (by omega), if_pos le_rfl, if_pos le_rfl, Nat.sub_self]
    rfl
  · obtain ⟨k, rfl⟩ := Nat.exists_eq_add_of_lt hgt
    rw [if_pos (by omega), if_pos (by omega), if_pos (by omega),
      show c + k + 1 - c = k + 1 by omega, show c + k + 1 - (c + 1) = k by omega]
    rfl

theorem overlay_singleton (b : Byte) (j : ℕ) : overlay r c [b] j = if j = c then b else r j := by
  unfold overlay
  rcases lt_trichotomy j c with hlt | rfl | hgt
  · rw [if_neg (by omega), if_neg (by omega)]
  · rw [if_pos le_rfl, if_pos rfl, Nat.sub_self]
    rfl
  · rw [if_pos (by omega), if_neg (by omega), List.getD_eq_default]
    rw [List.length_singleton]
    omega

theorem overlay_before {j : ℕ} (h : j < c) : overlay r c txt j = r j := if_neg (by omega)

theorem overlay_after {j : ℕ} (h : c + txt.length ≤ j) : overlay r c txt j = r j := by
  rw [overlay, if_pos (by omega), List.getD_eq_default _ _ (by omega)]

theorem overlay_inside {j : ℕ} (h : j < txt.length) (d : Byte) :
    overlay r c txt (c + j) = txt.getD j d := by
  rw [overlay, if_pos (by omega), Nat.add_sub_cancel_left, List.getD_eq_getElem _ _ h,
    List.getD_eq_getElem _ _ h]

theorem reads_overlay_iff {p : List Byte} (hp : ∀ j < p.length, r j = p.getD j blank) :
    Reads (overlay r p.length txt) (p ++ txt) ↔ ∀ j, p.length + txt.length ≤ j → r j = blank := by
  constructor
  · intro h j hj
    have hread := h j
    rwa [overlay_after hj, List.getD_eq_default _ _ (by rw [List.length_append]; exact hj)] at hread
  · intro h j
    rcases lt_or_ge j p.length with hlt | hge
    · rw [overlay_before hlt, hp j hlt, List.getD_append _ _ _ _ hlt]
    · obtain ⟨i, rfl⟩ := Nat.exists_eq_add_of_le hge
      rw [List.getD_append_right _ _ _ _ hge, Nat.add_sub_cancel_left]
      rcases lt_or_ge i txt.length with hin | hout
      · exact overlay_inside hin blank
      · rw [overlay_after (by omega), h _ (by omega), List.getD_eq_default _ _ hout]

theorem reads_overlay_blank (txt : List Byte) : Reads (overlay (fun _ => blank) 0 txt) txt :=
  (reads_overlay_iff (p := []) fun j hj => absurd hj (Nat.not_lt_zero j)).2 fun _ _ => rfl

theorem Reads.append {p : List Byte} (h : Reads r p) : Reads (overlay r p.length txt) (p ++ txt) := by
  refine (reads_overlay_iff fun j _ => h j).2 fun j hj => ?_
  rw [h j, List.getD_eq_default _ _ (by omega)]

theorem Reads.getD_after {p : List Byte} (h : Reads r (p ++ txt)) (i : ℕ) :
    r (p.length + i) = txt.getD i blank := by
  rw [h, List.getD_append_right _ _ _ _ (Nat.le_add_right _ _), Nat.add_sub_cancel_left]

theorem reads_shift {a b : List Byte} (ha : Reads r (a ++ txt)) (hb : Reads r (b ++ txt))
    (hlt : b.length < a.length) {j : ℕ} (hj : b.length ≤ j) : r j = blank := by
  obtain ⟨i, rfl⟩ := Nat.exists_eq_add_of_le hj
  obtain ⟨d, hd⟩ := Nat.exists_eq_add_of_lt hlt
  have hstep : ∀ i, txt.getD i blank = txt.getD (i + (d + 1)) blank := by
    intro i
    rw [← ha.getD_after, ← hb.getD_after]
    congr 1
    omega
  -- the text repeats itself at this distance, until past its end
  have hrepeat : ∀ n i, txt.getD i blank = txt.getD (i + n * (d + 1)) blank := by
    intro n
    induction n with
    | zero => simp
    | succ n ih =>
      intro i
      rw [ih, hstep, Nat.succ_mul, add_assoc]
  rw [hb.getD_after, hrepeat txt.length]
  exact List.getD_eq_default _ _ (le_trans (Nat.le_mul_of_pos_right _ d.succ_pos) (Nat.le_add_left _ _))

end Rows

namespace Terminal

def setRow (t : Terminal) (r : ℕ → Byte) : Terminal :=
  { t with cell := fun k => if k = t.row then r else t.cell k }

def put (t : Terminal) (txt : List Byte) : Terminal :=
  { t.setRow (overlay (t.cell t.row) t.col txt) with col := t.col + txt.length }

def eraseLine (t : Terminal) : Terminal :=
  t.setRow fun j => if j < t.col then t.cell t.row j else blank

def rubout (t : Terminal) : Terminal :=
  { t with
    cell := fun k j => if k = t.row ∧ j = t.col - 1 then blank else t.cell k j
    col := t.col - 1 }

/-- `CSI n b`. A count of zero stands for one, and the first row is the last to move up to. -/
def csi (t : Terminal) (n : ℕ) (b : Byte) : Terminal :=
  if b = 65 then { t with row := t.row - max n 1 }
  else if b = 67 then { t with col := t.col + max n 1 }
  else if b = 75 ∧ n = 0 then t.eraseLine
  else t

def step (t : Terminal) (b : Byte) : Terminal :=
  match t.mode with
  | .ground =>
    if b = 13 then { t with col := 0 }
    else if b = 10 then { t with row := t.row + 1 }
    else if b = 8 then { t with col := t.col - 1 }
    else if b = 27 then { t with mode := .escape }
    else if IsPrintable b then t.put [b]
    else t
  | .escape => if b = 91 then { t with mode := .csi 0 } else { t with mode := .ground }
  | .csi n =>
    if IsDigit b then { t with mode := .csi (10 * n + digitValue b) }
    else { t.csi n b with mode := .ground }

def feed (t : Terminal) (bs : List Byte) : Terminal := bs.foldl step t

theorem feed_append (t : Terminal) (as bs : List Byte) : t.feed (as ++ bs) = (t.feed as).feed bs :=
  List.foldl_append

theorem feed_cons (t : Terminal) (b : Byte) (bs : List Byte) : t.feed (b :: bs) = (t.step b).feed bs :=
  rfl

section Ground
variable {t : Terminal}

@[simp] theorem put_mode (txt : List Byte) : (t.put txt).mode = t.mode := rfl
@[simp] theorem put_row (txt : List Byte) : (t.put txt).row = t.row := rfl
@[simp] theorem put_col (txt : List Byte) : (t.put txt).col = t.col + txt.length := rfl

theorem put_cell (txt : List Byte) (k : ℕ) :
    (t.put txt).cell k = if k = t.row then overlay (t.cell t.row) t.col txt else t.cell k := rfl

theorem put_cell_self (txt : List Byte) :
    (t.put txt).cell t.row = overlay (t.cell t.row) t.col txt := if_pos rfl

theorem put_cell_of_ne (txt : List Byte) {k : ℕ} (h : k ≠ t.row) : (t.put txt).cell k = t.cell k :=
  if_neg h

theorem put_nil : t.put [] = t := by
  refine Terminal.ext ?_ rfl rfl rfl
  funext k
  rw [put_cell, overlay_nil]
  split_ifs with hk
  · rw [hk]
  · rfl

theorem put_cons (b : Byte) (txt : List Byte) : (t.put [b]).put txt = t.put (b :: txt) := by
  refine Terminal.ext ?_ rfl ?_ rfl
  · funext k
    rw [put_cell, put_cell, put_cell, put_cell, put_row, put_col, if_pos rfl, List.length_singleton,
      overlay_cons]
    split_ifs <;> rfl
  · simp only [put_col, List.length_cons, List.length_nil]
    omega

theorem step_return (h : t.mode = .ground) : t.step 13 = { t with col := 0 } := by
  rw [step, h]
  rfl

theorem step_lineFeed (h : t.mode = .ground) : t.step 10 = { t with row := t.row + 1 } := by
  rw [step, h]
  rfl

theorem step_backspace (h : t.mode = .ground) : t.step 8 = { t with col := t.col - 1 } := by
  rw [step, h]
  rfl

theorem step_printable (h : t.mode = .ground) {b : Byte} (hb : IsPrintable b) :
    t.step b = t.put [b] := by
  have hne : ∀ c : Byte, c < 32 → b ≠ c := by
    rintro c hc rfl
    exact absurd hb.1 (UInt8.not_le.2 hc)
  unfold step
  rw [h]
  simp only
  rw [if_neg (hne 13 (by decide)), if_neg (hne 10 (by decide)), if_neg (hne 8 (by decide)),
    if_neg (hne 27 (by decide)), if_pos hb]

theorem feed_text (h : t.mode = .ground) {txt : List Byte} (htxt : ∀ b ∈ txt, IsPrintable b) :
    t.feed txt = t.put txt := by
  induction txt generalizing t with
  | nil => exact put_nil.symm
  | cons b txt ih =>
    obtain ⟨hb, htxt⟩ := List.forall_mem_cons.1 htxt
    rw [feed_cons, step_printable h hb, ih ((put_mode [b]).trans h) htxt, put_cons]

theorem rubout_cell_of_ne {k : ℕ} (h : k ≠ t.row) : t.rubout.cell k = t.cell k :=
  funext fun _ => if_neg fun hand => h hand.1

theorem rubout_cell_row (j : ℕ) :
    t.rubout.cell t.row j = if j = t.col - 1 then blank else t.cell t.row j := by
  simp only [rubout, true_and]

theorem feed_rubout (h : t.mode = .ground) : t.feed [8, 32, 8] = t.rubout := by
  have hput : Terminal.step { t with col := t.col - 1 } 32 =
      Terminal.put { t with col := t.col - 1 } [32] :=
    step_printable (t := { t with col := t.col - 1 }) h isPrintable_blank
  have hback : (Terminal.put { t with col := t.col - 1 } [32]).step 8 = _ := step_backspace h
  rw [feed_cons, step_backspace h, feed_cons, hput, feed_cons, hback]
  refine Terminal.ext ?_ rfl rfl rfl
  funext k j
  change (Terminal.put { t with col := t.col - 1 } [32]).cell k j = _
  rw [put_cell]
  split_ifs with hk
  · obtain rfl : k = t.row := hk
    rw [rubout_cell_row, overlay_singleton]
    rfl
  · exact (congrFun (rubout_cell_of_ne (t := t) hk) j).symm

theorem feed_digits {n : ℕ} (h : t.mode = .csi n) {ds : List Byte} (hds : ∀ d ∈ ds, IsDigit d) :
    t.feed ds = { t with mode := .csi (ds.foldl (fun v d => 10 * v + digitValue d) n) } := by
  induction ds generalizing t n with
  | nil =>
    rw [List.foldl_nil, ← h]
    rfl
  | cons d ds ih =>
    obtain ⟨hd, hds⟩ := List.forall_mem_cons.1 hds
    have hstep : t.step d = { t with mode := .csi (10 * n + digitValue d) } := by
      unfold step
      rw [h]
      exact if_pos hd
    rw [feed_cons, hstep, ih rfl hds, List.foldl_cons]

theorem feed_csi (h : t.mode = .ground) (n : ℕ) {b : Byte} (hb : ¬ IsDigit b) :
    t.feed ([27, 91] ++ decimal n ++ [b]) = t.csi n b := by
  have hopen : t.feed [27, 91] = { t with mode := .csi 0 } := by
    simp [feed, step, h]
  have hnumber : t.feed ([27, 91] ++ decimal n) = { t with mode := .csi n } := by
    have hdigits := feed_digits (t := { t with mode := .csi 0 }) rfl
      fun d (hd : d ∈ decimal n) => isDigit_of_mem_decimal hd
    rw [feed_append, hopen, hdigits]
    exact congrArg (fun v => { t with mode := .csi v }) (digitsValue_decimal n)
  have hclose : ({ t with mode := .csi n } : Terminal).step b =
      { Terminal.csi { t with mode := .csi n } n b with mode := .ground } := if_neg hb
  rw [feed_append, hnumber]
  change ({ t with mode := .csi n } : Terminal).step b = _
  rw [hclose]
  unfold csi
  split_ifs <;> exact Terminal.ext rfl rfl rfl h.symm

theorem csi_up (n : ℕ) (hn : 0 < n) : t.csi n 65 = { t with row := t.row - n } := by
  rw [csi, if_pos rfl, Nat.max_eq_left hn]

theorem csi_forward (n : ℕ) (hn : 0 < n) : t.csi n 67 = { t with col := t.col + n } := by
  rw [csi, if_neg (by decide), if_pos rfl, Nat.max_eq_left hn]

theorem csi_erase : t.csi 0 75 = t.eraseLine := rfl

end Ground

def Visible (top : ℕ) (t : Terminal) : Prop := ∀ k, top ≤ k → ∀ j, IsPrintable (t.cell k j)

section Visible
variable {top : ℕ} {t : Terminal}

theorem Visible.setRow (h : t.Visible top) {r : ℕ → Byte}
    (hr : top ≤ t.row → ∀ j, IsPrintable (r j)) : (t.setRow r).Visible top := by
  intro k hk j
  change IsPrintable ((if k = t.row then r else t.cell k) j)
  split_ifs with heq
  · exact hr (heq ▸ hk) j
  · exact h k hk j

theorem Visible.putByte (h : t.Visible top) {b : Byte} (hb : IsPrintable b) :
    (t.put [b]).Visible top := by
  refine h.setRow fun htop j => ?_
  unfold overlay
  split_ifs
  · cases hj : j - t.col with
    | zero => exact hb
    | succ i => exact h t.row htop j
  · exact h t.row htop j

theorem Visible.csi (h : t.Visible top) (n : ℕ) (b : Byte) : (t.csi n b).Visible top := by
  unfold Terminal.csi
  split_ifs
  · exact h
  · exact h
  · refine h.setRow fun htop j => ?_
    split_ifs
    · exact h t.row htop j
    · exact isPrintable_blank
  · exact h

theorem Visible.step (h : t.Visible top) (b : Byte) : (t.step b).Visible top := by
  unfold Terminal.step
  cases t.mode with
  | ground =>
    simp only
    split_ifs with h₁ h₂ h₃ h₄ hb
    · exact h
    · exact h
    · exact h
    · exact h
    · exact h.putByte hb
    · exact h
  | escape =>
    simp only
    split_ifs <;> exact h
  | csi n =>
    simp only
    split_ifs
    · exact h
    · exact h.csi n b

theorem Visible.feed (h : t.Visible top) (bs : List Byte) : (t.feed bs).Visible top := by
  induction bs generalizing t with
  | nil => exact h
  | cons b bs ih => exact ih (h.step b)

end Visible

end Terminal
end MutantC.AnsiScreen
