import MutantC.Lib.CBuffer

/-! Memory in pages of `P` bytes, each with a protection of its own. A store fails where a page it
touches is not writable, and a change of protection takes whole pages. -/

namespace MutantC.Pages
open CBuffer

structure Prot where
  read : Bool
  write : Bool
  exec : Bool
deriving DecidableEq

def Prot.readWrite : Prot := ⟨true, true, false⟩
def Prot.readExec : Prot := ⟨true, false, true⟩

structure Memory where
  bytes : ℕ → Byte
  prot : ℕ → Prot

namespace Memory

def read (m : Memory) (a n : ℕ) : List Byte := (List.range n).map fun i => m.bytes (a + i)

def overwrite (m : Memory) (a : ℕ) (src : List Byte) : Memory :=
  { m with bytes := fun x => if a ≤ x then src.getD (x - a) (m.bytes x) else m.bytes x }

section Paged
variable (P : ℕ)

def Touches (a n q : ℕ) : Prop := ∃ i < n, (a + i) / P = q

instance (a n q : ℕ) : Decidable (Touches P a n q) :=
  inferInstanceAs (Decidable (∃ i < n, (a + i) / P = q))

def Writable (m : Memory) (a n : ℕ) : Prop := ∀ i < n, (m.prot ((a + i) / P)).write = true

instance (m : Memory) (a n : ℕ) : Decidable (Writable P m a n) :=
  inferInstanceAs (Decidable (∀ i < n, (m.prot ((a + i) / P)).write = true))

def write (m : Memory) (a : ℕ) (src : List Byte) : Option Memory :=
  if Writable P m a src.length then some (m.overwrite a src) else none

/-- `mprotect`: without effect at an address that no page starts at. -/
def protect (m : Memory) (a n : ℕ) (p : Prot) : Memory :=
  if P ∣ a then { m with prot := fun q => if Touches P a n q then p else m.prot q } else m

end Paged

section Bytes
variable {m : Memory} {a b n : ℕ} {src : List Byte}

@[simp] theorem length_read : (m.read a n).length = n := by
  rw [read, List.length_map, List.length_range]

@[simp] theorem overwrite_prot : (m.overwrite a src).prot = m.prot := rfl

@[simp] theorem getElem_read {k : ℕ} (h : k < (m.read a n).length) :
    (m.read a n)[k] = m.bytes (a + k) := by
  simp [read]

theorem overwrite_bytes (x : ℕ) :
    (m.overwrite a src).bytes x = if a ≤ x then src.getD (x - a) (m.bytes x) else m.bytes x := rfl

/-- A store inside a block is a store into the list of the block's bytes. -/
theorem read_overwrite_inside {i : ℕ} (h : i + src.length ≤ n) :
    writeAt (m.read a n) i src = some ((m.overwrite (a + i) src).read a n) := by
  rw [writeAt, if_pos (by rwa [length_read]), Option.some.injEq]
  apply List.ext_getElem
  · simp only [List.length_append, List.length_take, List.length_drop, length_read]
    omega
  intro k hk _
  rw [getElem_read, overwrite_bytes]
  rcases lt_or_ge k i with hlt | hge
  · -- before the store
    rw [if_neg (by omega), List.getElem_append_left (by simp; omega),
      List.getElem_append_left (by simp; omega), List.getElem_take, getElem_read]
  rw [if_pos (by omega), show a + k - (a + i) = k - i by omega]
  rcases lt_or_ge k (i + src.length) with hin | hout
  · -- inside it
    have hlen : ((m.read a n).take i).length = i := List.length_take_of_le (by rw [length_read]; omega)
    rw [List.getD_eq_getElem _ _ (by omega), List.getElem_append_left (by simp; omega),
      List.getElem_append_right (by omega)]
    simp only [hlen]
  · -- past it
    have hlen : ((m.read a n).take i ++ src).length = i + src.length := by
      rw [List.length_append, List.length_take_of_le (by rw [length_read]; omega)]
    rw [List.getD_eq_default _ _ (by omega), List.getElem_append_right (by omega), List.getElem_drop,
      getElem_read]
    simp only [hlen]
    congr 1
    omega

theorem read_overwrite : (m.overwrite a src).read a src.length = src := by
  apply List.ext_getElem
  · exact length_read
  intro k hk _
  rw [length_read] at hk
  rw [getElem_read, overwrite_bytes, if_pos (by omega), Nat.add_sub_cancel_left,
    List.getD_eq_getElem _ _ hk]

theorem read_overwrite_apart (h : a + n ≤ b ∨ b + src.length ≤ a) :
    (m.overwrite b src).read a n = m.read a n := by
  apply List.map_congr_left
  intro i hi
  have hlt := List.mem_range.1 hi
  rw [overwrite_bytes]
  split_ifs with hle
  · exact List.getD_eq_default _ _ (by omega)
  · rfl

end Bytes

section Protection
variable {P : ℕ} {m : Memory} {a n : ℕ} {p : Prot}

theorem write_eq {src : List Byte} (h : Writable P m a src.length) :
    m.write P a src = some (m.overwrite a src) := if_pos h

theorem page_bounds (hP : 0 < P) (ha : P ∣ a) {x : ℕ} (h : x / P = a / P) : a ≤ x ∧ x < a + P := by
  obtain ⟨k, rfl⟩ := ha
  rw [Nat.mul_div_cancel_left k hP, Nat.div_eq_iff hP] at h
  constructor
  · rw [mul_comm]
    exact h.1
  · rw [mul_comm]
    omega

theorem touches_iff (hn : 0 < n) (hnP : n ≤ P) (ha : P ∣ a) {q : ℕ} : Touches P a n q ↔ q = a / P := by
  have hpage : ∀ i < n, (a + i) / P = a / P := by
    obtain ⟨k, rfl⟩ := ha
    intro i hi
    rw [Nat.mul_add_div (by omega), Nat.div_eq_of_lt (by omega), add_zero,
      Nat.mul_div_cancel_left k (by omega)]
  constructor
  · rintro ⟨i, hi, rfl⟩
    exact hpage i hi
  · rintro rfl
    exact ⟨0, hn, by rw [add_zero]⟩

@[simp] theorem protect_read {b k : ℕ} : (m.protect P a n p).read b k = m.read b k := by
  rw [protect]
  split_ifs <;> rfl

theorem protect_prot (ha : P ∣ a) (q : ℕ) :
    (m.protect P a n p).prot q = if Touches P a n q then p else m.prot q := by
  rw [protect, if_pos ha]

theorem writable_protect (ha : P ∣ a) {i k : ℕ} (h : i + k ≤ n) (hp : p.write = true) :
    Writable P (m.protect P a n p) (a + i) k := by
  intro j hj
  rw [protect_prot ha, if_pos ⟨i + j, by omega, by rw [add_assoc]⟩]
  exact hp

end Protection

end Memory
end MutantC.Pages
