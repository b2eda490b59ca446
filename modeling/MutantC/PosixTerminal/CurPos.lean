import MutantC.Lib.Scan

/-! The cursor report: `get_cur_pos` parses what it read from the third byte on and does not look at what
`sscanf` says about it. -/

namespace MutantC.PosixTerminal
open CBuffer Decimal Scan

structure CurPos where
  curRow : BitVec 32
  curCol : BitVec 32
deriving DecidableEq

def CurPosBuf := { buf : List Byte // buf.length = 32 }

/-- The loop that reads the response: it ends at the end of the input, at an `R` or when only one byte of
`buf` is left. -/
def readResponse : ℕ → List Byte → ℕ → List Byte → Option (List Byte × ℕ)
  | 0, buf, i, _ => some (buf, i)
  | _ + 1, buf, i, [] => some (buf, i)
  | n + 1, buf, i, b :: input => do
    let buf ← store buf i b
    if b = 82 then some (buf, i) else readResponse n buf (i + 1) input

/-- `buf` and `retval` come uninitialised; `none` is a string that runs on behind `buf`. -/
def getCurPos (buf : CurPosBuf) (retval : CurPos) (input : List Byte) : Option CurPos := do
  let (buf, i) ← readResponse (32 - 1) buf.val 0 input
  let buf ← store buf i 0
  let s ← cstr (buf.drop 2)
  let (row, col) := scanPair s
  some ⟨row.getD retval.curRow, col.getD retval.curCol⟩

/-- A report of the cursor behind bytes that the user typed ahead, as much as `buf` takes. -/
structure Report where
  typed : List Byte
  row : List Byte
  col : List Byte
  typed_plain : ∀ b ∈ typed, b ≠ 27 ∧ b ≠ 82
  isNumeral_row : IsNumeral row
  isNumeral_col : IsNumeral col
  fits : (typed ++ ([27, 91] ++ row ++ [59] ++ col ++ [82])).length ≤ 31

namespace Report

def bytes (r : Report) : List Byte := r.typed ++ ([27, 91] ++ r.row ++ [59] ++ r.col ++ [82])

def pos (r : Report) : ℕ × ℕ := (digitsValue r.row, digitsValue r.col)

end Report

/-- The position is the one reported, whatever was in the memory. -/
def Exact (r : Report) (rest : List Byte) : Prop :=
  ∀ buf retval, ∃ p, getCurPos buf retval (r.bytes ++ rest) = some p ∧ (p.curRow.toNat, p.curCol.toNat) = r.pos

/-- Runs that read the same bytes return the same position. -/
def Determined (input : List Byte) : Prop :=
  ∀ buf buf' retval retval', getCurPos buf retval input = getCurPos buf' retval' input

def response (input : List Byte) : List Byte := (input.take 31).takeWhile (· ≠ 82)

def scanned (s : List Byte) : List Byte := (s.drop 2).takeWhile (· ≠ 0)

section Read
variable {input : List Byte}

theorem readResponse_eq (n : ℕ) (pre post input : List Byte) (hn : n < post.length) :
    ((readResponse n (pre ++ post) pre.length input).bind fun r => store r.1 r.2 0) =
      some (pre ++ (input.take n).takeWhile (· ≠ 82) ++
        0 :: post.drop (((input.take n).takeWhile (· ≠ 82)).length + 1)) := by
  have hset (b : Byte) {x : Byte} {post : List Byte} (pre : List Byte) :
      store (pre ++ x :: post) pre.length b = some (pre ++ b :: post) := by
    rw [store, if_pos (by simp), List.set_append_right _ _ le_rfl, Nat.sub_self, List.set_cons_zero]
  induction n generalizing pre post input with
  | zero =>
    obtain ⟨x, post, rfl⟩ := List.exists_cons_of_length_pos hn
    simp [readResponse, hset]
  | succ n ih =>
    obtain ⟨x, post, rfl⟩ := List.exists_cons_of_length_pos (Nat.zero_lt_of_lt hn)
    cases input with
    | nil => simp [readResponse, hset]
    | cons b input =>
      rw [readResponse, hset]
      simp only [Option.bind_eq_bind, Option.bind_some, List.take_succ_cons]
      by_cases hb : b = 82
      · rw [if_pos hb, Option.bind_some, hset, List.takeWhile_cons_of_neg (by simpa using hb)]
        simp
      · have hrest := ih (pre ++ [b]) post input (Nat.lt_of_succ_lt_succ hn)
        rw [if_neg hb, List.takeWhile_cons_of_pos (by simpa using hb)]
        simpa using hrest

theorem getCurPos_eq (buf : CurPosBuf) (retval : CurPos) (input : List Byte) :
    getCurPos buf retval input =
      (cstr ((response input ++ 0 :: buf.val.drop ((response input).length + 1)).drop 2)).map fun s =>
        ⟨(scanPair s).1.getD retval.curRow, (scanPair s).2.getD retval.curCol⟩ := by
  have hread := readResponse_eq 31 [] buf.val input (by rw [buf.property]; decide)
  unfold getCurPos
  rw [Option.map_eq_bind]
  obtain ⟨r, hr, hstore⟩ := Option.bind_eq_some_iff.1 hread
  have hr' : readResponse (32 - 1) buf.val 0 input = some r := hr
  simp only [Option.bind_eq_bind, hr', Option.bind_some, hstore]
  rfl

theorem getCurPos_of_two_le (h : 2 ≤ (response input).length) (buf : CurPosBuf) (retval : CurPos) :
    getCurPos buf retval input =
      some ⟨(scanPair (scanned (response input))).1.getD retval.curRow,
        (scanPair (scanned (response input))).2.getD retval.curCol⟩ := by
  rw [getCurPos_eq, List.drop_append_of_le_length h, cstr_append_zero, Option.map_some]
  rfl

theorem getCurPos_of_lt_two (h : (response input).length < 2) (buf : CurPosBuf) (retval : CurPos) :
    getCurPos buf retval input = (cstr (buf.val.drop 2)).map fun s =>
      ⟨(scanPair s).1.getD retval.curRow, (scanPair s).2.getD retval.curCol⟩ := by
  rw [getCurPos_eq]
  generalize response input = s at h
  rcases s with - | ⟨b, - | ⟨c, s⟩⟩
  · simp
  · simp
  · simp at h

def CurPosBuf.zeros : CurPosBuf := ⟨List.replicate 32 0, List.length_replicate⟩

theorem getCurPos_zeros (input : List Byte) (retval : CurPos) :
    getCurPos .zeros retval input =
      some ⟨(scanPair (scanned (response input))).1.getD retval.curRow,
        (scanPair (scanned (response input))).2.getD retval.curCol⟩ := by
  rcases lt_or_ge (response input).length 2 with hlt | hge
  · rw [getCurPos_of_lt_two hlt, scanned, List.drop_of_length_le (Nat.le_of_lt hlt)]
    rfl
  · exact getCurPos_of_two_le hge _ _

theorem two_le_of_isPair {s : List Byte} (h : IsPair (scanned s)) : 2 ≤ s.length := by
  by_contra hlt
  obtain ⟨a, b, t, -, -, heq⟩ := h
  rw [scanned, List.drop_of_length_le (by omega)] at heq
  exact List.append_ne_nil_of_right_ne_nil a (List.cons_ne_nil _ _) heq.symm

theorem determined_iff : Determined input ↔ IsPair (scanned (response input)) := by
  rw [← scanPair_iff]
  constructor
  · intro h
    have hsame := h .zeros .zeros ⟨0, 0⟩ ⟨1, 1⟩
    rw [getCurPos_zeros, getCurPos_zeros] at hsame
    obtain ⟨hrow, hcol⟩ := CurPos.mk.inj (Option.some.inj hsame)
    generalize scanPair (scanned (response input)) = stored at hrow hcol ⊢
    have hne : (0 : BitVec 32) ≠ 1 := by decide
    rcases stored with ⟨_ | a, _ | b⟩
    · exact absurd hrow hne
    · exact absurd hrow hne
    · exact absurd hcol hne
    · exact ⟨a, b, rfl⟩
  · intro h buf buf' retval retval'
    have hlen := two_le_of_isPair (scanPair_iff.1 h)
    obtain ⟨a, b, hscan⟩ := h
    rw [getCurPos_of_two_le hlen, getCurPos_of_two_le hlen, hscan]
    rfl

end Read

section Reports
variable (r : Report) (rest : List Byte)

theorem not_stop_of_isNumeral {ds : List Byte} (h : IsNumeral ds) : ∀ b ∈ ds, b ≠ 82 ∧ b ≠ 0 := by
  intro b hb
  have hdigit := h.2.1 b hb
  constructor <;> rintro rfl <;> exact absurd hdigit (by decide)

theorem not_stop_of_mem {b : Byte} (hb : b ∈ r.row ++ 59 :: r.col) : b ≠ 82 ∧ b ≠ 0 := by
  rcases List.mem_append.1 hb with hb | hb
  · exact not_stop_of_isNumeral r.isNumeral_row b hb
  · rcases List.mem_cons.1 hb with rfl | hb
    · decide
    · exact not_stop_of_isNumeral r.isNumeral_col b hb

theorem response_report :
    response (r.bytes ++ rest) = r.typed ++ 27 :: 91 :: (r.row ++ 59 :: r.col) := by
  have hbytes : r.bytes ++ rest = (r.typed ++ 27 :: 91 :: (r.row ++ 59 :: r.col)) ++ 82 :: rest := by
    simp [Report.bytes]
  have hplain : ∀ b ∈ r.typed ++ 27 :: 91 :: (r.row ++ 59 :: r.col), decide (b ≠ 82) = true := by
    intro b hb
    apply decide_eq_true
    rw [List.mem_append, List.mem_cons, List.mem_cons] at hb
    rcases hb with hb | rfl | rfl | hb
    · exact (r.typed_plain b hb).2
    · decide
    · decide
    · exact (not_stop_of_mem r hb).1
  have hroom : (r.typed ++ 27 :: 91 :: (r.row ++ 59 :: r.col)).length + 1 ≤ 31 := by
    have hfits := r.fits
    simp only [List.length_append, List.length_cons, List.length_nil] at hfits ⊢
    omega
  obtain ⟨n, hn⟩ := Nat.exists_eq_add_of_le hroom
  rw [response, hbytes, hn, Nat.add_assoc, List.take_length_add_append, Nat.add_comm 1, List.take_succ_cons,
    List.takeWhile_append_of_pos hplain, List.takeWhile_cons_of_neg (by decide), List.append_nil]

theorem scanPair_report :
    scanPair (scanned (response (r.bytes ++ rest))) = if r.typed = [] then
      (some (BitVec.ofNat 32 (digitsValue r.row)), some (BitVec.ofNat 32 (digitsValue r.col)))
    else scanPair (scanned r.typed) := by
  rw [response_report, scanned, scanned]
  rcases r.typed with - | ⟨b, - | ⟨c, u⟩⟩
  · have hall : ∀ b ∈ r.row ++ 59 :: r.col, decide (b ≠ 0) = true := by
      intro b hb
      apply decide_eq_true
      exact (not_stop_of_mem r hb).2
    rw [if_pos rfl]
    change scanPair ((r.row ++ 59 :: r.col).takeWhile (· ≠ 0)) = _
    rw [List.takeWhile_eq_self_iff.2 hall, scanPair_numerals r.isNumeral_row r.isNumeral_col]
  · rw [if_neg (List.cons_ne_nil _ _)]
    exact scanPair_takeWhile_append_stop (c := 91) (by decide) [] _
  · rw [if_neg (List.cons_ne_nil _ _)]
    exact scanPair_takeWhile_append_stop (c := 27) (by decide) u _

theorem getCurPos_report (buf : CurPosBuf) (retval : CurPos) : getCurPos buf retval (r.bytes ++ rest) =
    some ⟨(scanPair (scanned (response (r.bytes ++ rest)))).1.getD retval.curRow,
      (scanPair (scanned (response (r.bytes ++ rest)))).2.getD retval.curCol⟩ := by
  apply getCurPos_of_two_le
  rw [response_report]
  simp only [List.length_append, List.length_cons]
  omega

theorem getD_toNat_iff {a : Option (BitVec 32)} {n : ℕ} (hn : n < 2 ^ 31) :
    ((a.getD 0).toNat = n ∧ (a.getD 1).toNat = n) ↔ a = some (BitVec.ofNat 32 n) := by
  have hmod : n % 2 ^ 32 = n := Nat.mod_eq_of_lt (by omega)
  constructor
  · rintro ⟨hzero, hone⟩
    cases a with
    | none => exact absurd (hzero.trans hone.symm) (by decide)
    | some v =>
      congr 1
      apply BitVec.eq_of_toNat_eq
      rw [BitVec.toNat_ofNat, hmod]
      exact hzero
  · rintro rfl
    simp only [Option.getD_some, BitVec.toNat_ofNat, hmod, and_self]

theorem exact_iff : Exact r rest ↔ r.typed = [] ∨ scanPair (scanned r.typed) =
    (some (BitVec.ofNat 32 (digitsValue r.row)), some (BitVec.ofNat 32 (digitsValue r.col))) := by
  have hrow := r.isNumeral_row.2.2
  have hcol := r.isNumeral_col.2.2
  have hscan : Exact r rest ↔ scanPair (scanned (response (r.bytes ++ rest))) =
      (some (BitVec.ofNat 32 (digitsValue r.row)), some (BitVec.ofNat 32 (digitsValue r.col))) := by
    rw [Prod.ext_iff, ← getD_toNat_iff hrow, ← getD_toNat_iff hcol]
    constructor
    · intro h
      obtain ⟨p₀, hp₀, hpos₀⟩ := h .zeros ⟨0, 0⟩
      obtain ⟨p₁, hp₁, hpos₁⟩ := h .zeros ⟨1, 1⟩
      obtain rfl := Option.some.inj ((getCurPos_report r rest _ _).symm.trans hp₀)
      obtain rfl := Option.some.inj ((getCurPos_report r rest _ _).symm.trans hp₁)
      obtain ⟨hrow₀, hcol₀⟩ := Prod.mk.inj hpos₀
      obtain ⟨hrow₁, hcol₁⟩ := Prod.mk.inj hpos₁
      exact ⟨⟨hrow₀, hrow₁⟩, hcol₀, hcol₁⟩
    · rintro ⟨hfst, hsnd⟩ buf retval
      rw [getD_toNat_iff hrow] at hfst
      rw [getD_toNat_iff hcol] at hsnd
      refine ⟨_, getCurPos_report r rest buf retval, ?_⟩
      rw [hfst, hsnd]
      exact Prod.ext (((getD_toNat_iff hrow).2 rfl).1) (((getD_toNat_iff hcol).2 rfl).1)
  rw [hscan, scanPair_report]
  split_ifs with htyped
  · exact iff_of_true rfl (Or.inl htyped)
  · rw [or_iff_right htyped]

end Reports

/-- A report is decoded as it is exactly when nothing was typed ahead of it or what was typed reads the same;
and the memory does not show exactly when two numbers stand where the parser looks. -/
theorem cursor_report_iff (r : Report) (rest input : List Byte) :
    (Exact r rest ↔ r.typed = [] ∨ scanPair (scanned r.typed) =
      (some (BitVec.ofNat 32 (digitsValue r.row)), some (BitVec.ofNat 32 (digitsValue r.col)))) ∧
    (Determined input ↔ IsPair (scanned (response input))) :=
  ⟨exact_iff r rest, determined_iff⟩

/-- `x` ahead of `ESC [ 5 ; 7 R`, and no input at all. -/
theorem typed_ahead_shows_memory :
    (∃ r : Report, r.bytes = [120, 27, 91, 53, 59, 55, 82] ∧ ¬ Exact r [] ∧ ¬ Determined r.bytes) ∧
      ¬ Determined [] := by
  refine ⟨⟨⟨[120], [53], [55], by simp, by decide +kernel, by decide +kernel, by decide⟩, rfl, ?_, ?_⟩, ?_⟩
  · intro h
    obtain ⟨p, hp, hpos⟩ := h .zeros ⟨0, 0⟩
    have hread : getCurPos .zeros ⟨0, 0⟩ [120, 27, 91, 53, 59, 55, 82] = some ⟨0, 0⟩ := by decide
    obtain rfl := Option.some.inj (hread.symm.trans hp)
    exact absurd hpos (by decide)
  · intro h
    exact absurd (h .zeros .zeros ⟨0, 0⟩ ⟨1, 1⟩) (by decide)
  · intro h
    exact absurd (h .zeros .zeros ⟨0, 0⟩ ⟨1, 1⟩) (by decide)

end MutantC.PosixTerminal
