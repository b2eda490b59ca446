import MutantC.Lib.CBuffer

/-! The byte arithmetic of the rope: codepoint sizes, counting and validation. A character is the
group of bytes that the validation accepts as one codepoint. -/

namespace MutantC.Librope
open CBuffer

def sizeMax : ℕ := 2 ^ 64 - 1

def codepointSize (byte : Byte) : ℕ :=
  if byte = 0 then sizeMax
  else if byte ≤ 0x7f then 1
  else if byte ≤ 0xbf then sizeMax
  else if byte ≤ 0xdf then 2
  else if byte ≤ 0xef then 3
  else if byte ≤ 0xf7 then 4
  else if byte ≤ 0xfb then 5
  else if byte ≤ 0xfd then 6
  else sizeMax

/-- The bytes from `str` on are the memory there; what lies past its end reads as NUL. -/
def countBytesInUtf8 (str : List Byte) : ℕ → ℕ
  | 0 => 0
  | n + 1 =>
    let size := codepointSize (str.headD 0)
    size + countBytesInUtf8 (str.drop size) n

/-- The loop of `strlen_utf8`; `skip` bytes of the current codepoint are still to be passed. -/
def strlenFrom : ℕ → List Byte → ℕ
  | _, [] => 0
  | 0, b :: str => strlenFrom (codepointSize b - 1) str + 1
  | skip + 1, _ :: str => strlenFrom skip str

def strlenUtf8 (str : List Byte) : ℕ := strlenFrom 0 str

def isMiddle (b : Byte) : Prop := b &&& 0xc0 = 0x80

instance : DecidablePred isMiddle := fun b => inferInstanceAs (Decidable (b &&& 0xc0 = 0x80))

/-- The two nested loops of `bytelen_and_check_utf8`; `size` middle bytes are still expected. -/
def checkFrom : ℕ → List Byte → Option ℕ
  | 0, [] => some 0
  | _ + 1, [] => none
  | 0, b :: str =>
    if codepointSize b = sizeMax then none else (checkFrom (codepointSize b - 1) str).map (· + 1)
  | size + 1, b :: str => if isMiddle b then (checkFrom size str).map (· + 1) else none

def bytelenAndCheckUtf8 (str : List Byte) : Option ℕ := checkFrom 0 str

structure Utf8Char where
  lead : Byte
  middle : List Byte
  valid : codepointSize lead ≠ sizeMax
  size : codepointSize lead = middle.length + 1
  isMiddle : ∀ b ∈ middle, isMiddle b
deriving DecidableEq

def Utf8Char.bytes (c : Utf8Char) : List Byte := c.lead :: c.middle

def utf8Bytes (cs : List Utf8Char) : List Byte := cs.flatMap Utf8Char.bytes

/-- The middle bytes that open `str` and the characters that follow them. -/
def decodeFrom : List Byte → Option (List Byte × List Utf8Char)
  | [] => some ([], [])
  | b :: str =>
    match decodeFrom str with
    | none => none
    | some (mid, cs) =>
      if isMiddle b then some (b :: mid, cs)
      else if h : codepointSize b ≠ sizeMax ∧ codepointSize b = mid.length + 1 ∧
          ∀ x ∈ mid, isMiddle x then
        some ([], ⟨b, mid, h.1, h.2.1, h.2.2⟩ :: cs)
      else none

def decodeUtf8 (str : List Byte) : Option (List Utf8Char) :=
  match decodeFrom str with
  | some ([], cs) => some cs
  | _ => none

@[simp] theorem utf8Bytes_nil : utf8Bytes [] = [] := rfl

@[simp] theorem utf8Bytes_cons (c : Utf8Char) (cs : List Utf8Char) :
    utf8Bytes (c :: cs) = c.bytes ++ utf8Bytes cs := rfl

@[simp] theorem utf8Bytes_append (cs ds : List Utf8Char) :
    utf8Bytes (cs ++ ds) = utf8Bytes cs ++ utf8Bytes ds := List.flatMap_append

theorem codepointSize_of_isMiddle {b : Byte} (h : isMiddle b) : codepointSize b = sizeMax := by
  have key : ∀ n < 256, isMiddle (UInt8.ofNat n) → codepointSize (UInt8.ofNat n) = sizeMax := by
    decide +kernel
  have hb := key b.toNat b.toNat_lt
  rw [UInt8.ofNat_toNat] at hb
  exact hb h

theorem codepointSize_le {b : Byte} (h : codepointSize b ≠ sizeMax) : codepointSize b ≤ 6 := by
  unfold codepointSize at h ⊢
  split_ifs at h ⊢ <;> omega

theorem Utf8Char.length_bytes (c : Utf8Char) : c.bytes.length = codepointSize c.lead := by
  rw [c.size]
  rfl

theorem Utf8Char.length_pos (c : Utf8Char) : 0 < c.bytes.length := Nat.succ_pos _

theorem Utf8Char.length_le (c : Utf8Char) : c.bytes.length ≤ 6 :=
  c.length_bytes ▸ codepointSize_le c.valid

theorem Utf8Char.not_isMiddle_lead (c : Utf8Char) : ¬ Librope.isMiddle c.lead :=
  fun h => c.valid (codepointSize_of_isMiddle h)

theorem Utf8Char.zero_notMem (c : Utf8Char) : 0 ∉ c.bytes := by
  intro h
  rcases List.mem_cons.1 h with h | h
  · exact c.valid (h ▸ rfl)
  · exact absurd (c.isMiddle 0 h) (by decide)

theorem zero_notMem_utf8Bytes (cs : List Utf8Char) : 0 ∉ utf8Bytes cs := by
  intro h
  obtain ⟨c, -, hc⟩ := List.mem_flatMap.1 h
  exact c.zero_notMem hc

theorem length_le_utf8Bytes (cs : List Utf8Char) : cs.length ≤ (utf8Bytes cs).length := by
  induction cs with
  | nil => simp
  | cons c cs ih =>
    have := c.length_pos
    simp only [List.length_cons, utf8Bytes_cons, List.length_append]
    omega

theorem utf8Bytes_eq_nil {cs : List Utf8Char} : utf8Bytes cs = [] ↔ cs = [] := by
  constructor
  · intro h
    have := length_le_utf8Bytes cs
    rw [h] at this
    exact List.eq_nil_of_length_eq_zero (by simpa using this)
  · rintro rfl
    rfl

theorem countBytesInUtf8_append (cs : List Utf8Char) (rest : List Byte) :
    countBytesInUtf8 (utf8Bytes cs ++ rest) cs.length = (utf8Bytes cs).length := by
  induction cs with
  | nil => rfl
  | cons c cs ih =>
    have hhead : (utf8Bytes (c :: cs) ++ rest).headD 0 = c.lead := rfl
    rw [List.length_cons, countBytesInUtf8, hhead, ← c.length_bytes, utf8Bytes_cons,
      List.append_assoc, List.drop_left, ih, List.length_append]

theorem strlenFrom_skip (mid str : List Byte) :
    strlenFrom mid.length (mid ++ str) = strlenFrom 0 str := by
  induction mid with
  | nil => rfl
  | cons b mid ih => exact ih

theorem strlenUtf8_utf8Bytes (cs : List Utf8Char) : strlenUtf8 (utf8Bytes cs) = cs.length := by
  induction cs with
  | nil => rfl
  | cons c cs ih =>
    have hsize : codepointSize c.lead - 1 = c.middle.length := by rw [c.size]; rfl
    rw [strlenUtf8, utf8Bytes_cons, Utf8Char.bytes, List.cons_append, strlenFrom, hsize,
      strlenFrom_skip]
    exact congrArg (· + 1) ih

theorem decodeFrom_append (mid : List Byte) (h : ∀ b ∈ mid, isMiddle b) (cs : List Utf8Char) :
    decodeFrom (mid ++ utf8Bytes cs) = some (mid, cs) := by
  induction mid with
  | nil =>
    induction cs with
    | nil => rfl
    | cons c cs ih =>
      have hmid : ∀ m : List Byte, (∀ b ∈ m, isMiddle b) →
          decodeFrom (m ++ utf8Bytes cs) = some (m, cs) := by
        intro m hm
        induction m with
        | nil => exact ih
        | cons b m ihm =>
          rw [List.cons_append, decodeFrom, ihm fun x hx => hm x (List.mem_cons_of_mem b hx)]
          simp only [if_pos (hm b List.mem_cons_self)]
      rw [List.nil_append, utf8Bytes_cons, Utf8Char.bytes, List.cons_append, decodeFrom,
        hmid c.middle c.isMiddle]
      simp only [if_neg c.not_isMiddle_lead]
      rw [dif_pos ⟨c.valid, c.size, c.isMiddle⟩]
  | cons b mid ih =>
    rw [List.cons_append, decodeFrom, ih fun x hx => h x (List.mem_cons_of_mem b hx)]
    simp only [if_pos (h b List.mem_cons_self)]

theorem decodeUtf8_utf8Bytes (cs : List Utf8Char) : decodeUtf8 (utf8Bytes cs) = some cs := by
  have h := decodeFrom_append [] (by simp) cs
  rw [List.nil_append] at h
  rw [decodeUtf8, h]

theorem checkFrom_append (mid : List Byte) (h : ∀ b ∈ mid, isMiddle b) (cs : List Utf8Char) :
    checkFrom mid.length (mid ++ utf8Bytes cs) = some (mid ++ utf8Bytes cs).length := by
  induction cs generalizing mid with
  | nil =>
    induction mid with
    | nil => rfl
    | cons b mid ih =>
      rw [List.cons_append, List.length_cons, checkFrom, if_pos (h b List.mem_cons_self),
        ih fun x hx => h x (List.mem_cons_of_mem b hx)]
      rfl
  | cons c cs ihc =>
    induction mid with
    | nil =>
      have hsize : codepointSize c.lead - 1 = c.middle.length := by rw [c.size]; rfl
      rw [List.nil_append, utf8Bytes_cons, Utf8Char.bytes, List.cons_append, List.length_nil,
        checkFrom, if_neg c.valid, hsize, ihc c.middle c.isMiddle]
      rfl
    | cons b mid ih =>
      rw [List.cons_append, List.length_cons, checkFrom, if_pos (h b List.mem_cons_self),
        ih fun x hx => h x (List.mem_cons_of_mem b hx)]
      rfl

theorem checkFrom_some {size n : ℕ} {str : List Byte} (h : checkFrom size str = some n) :
    ∃ mid cs, str = mid ++ utf8Bytes cs ∧ mid.length = size ∧ ∀ b ∈ mid, isMiddle b := by
  induction str generalizing size n with
  | nil =>
    cases size with
    | zero => exact ⟨[], [], rfl, rfl, by simp⟩
    | succ size => simp [checkFrom] at h
  | cons b str ih =>
    cases size with
    | zero =>
      rw [checkFrom] at h
      split_ifs at h with hb
      obtain ⟨m, hm, -⟩ := Option.map_eq_some_iff.1 h
      obtain ⟨mid, cs, rfl, hlen, hmid⟩ := ih hm
      have hpos : 0 < codepointSize b := by
        unfold codepointSize
        split_ifs <;> decide
      exact ⟨[], ⟨b, mid, hb, by omega, hmid⟩ :: cs, rfl, rfl, by simp⟩
    | succ size =>
      rw [checkFrom] at h
      split_ifs at h with hb
      obtain ⟨m, hm, -⟩ := Option.map_eq_some_iff.1 h
      obtain ⟨mid, cs, rfl, hlen, hmid⟩ := ih hm
      refine ⟨b :: mid, cs, rfl, by simp [hlen], ?_⟩
      intro x hx
      rcases List.mem_cons.1 hx with rfl | hx
      · exact hb
      · exact hmid x hx

theorem bytelenAndCheckUtf8_utf8Bytes (cs : List Utf8Char) :
    bytelenAndCheckUtf8 (utf8Bytes cs) = some (utf8Bytes cs).length :=
  checkFrom_append [] (by simp) cs

theorem exists_chars_of_check {str : List Byte} (h : bytelenAndCheckUtf8 str ≠ none) :
    ∃ cs, str = utf8Bytes cs := by
  obtain ⟨n, hn⟩ := Option.ne_none_iff_exists'.1 h
  obtain ⟨mid, cs, rfl, hlen, -⟩ := checkFrom_some hn
  obtain rfl := List.eq_nil_of_length_eq_zero hlen
  exact ⟨cs, rfl⟩

theorem decodeFrom_some {str mid : List Byte} {cs : List Utf8Char} (h : decodeFrom str = some (mid, cs)) :
    str = mid ++ utf8Bytes cs := by
  induction str generalizing mid cs with
  | nil =>
    obtain ⟨rfl, rfl⟩ := Prod.mk.inj (Option.some.inj h)
    rfl
  | cons b str ih =>
    rw [decodeFrom] at h
    split at h
    · cases h
    · next mid' cs' hrest =>
      split_ifs at h with hb hvalid
      · obtain ⟨rfl, rfl⟩ := Prod.mk.inj (Option.some.inj h)
        rw [ih hrest]
        rfl
      · obtain ⟨rfl, rfl⟩ := Prod.mk.inj (Option.some.inj h)
        rw [ih hrest]
        rfl

theorem decodeUtf8_of_invalid {str : List Byte} (h : bytelenAndCheckUtf8 str = none) :
    decodeUtf8 str = none := by
  unfold decodeUtf8
  split
  · next cs hcs =>
    rw [decodeFrom_some hcs, List.nil_append, bytelenAndCheckUtf8_utf8Bytes] at h
    cases h
  · rfl

end MutantC.Librope
