import MutantC.Lib.Iteration

/-! Decoders of a stream that arrives in pieces. A decoder looks at the front of what has arrived and has
not been decoded; it is sound when what it makes of a front does not depend on what comes behind it. Such a
decoder gives the same items however the stream is cut. -/

namespace MutantC.StreamDecoder

variable {σ α κ : Type*}

/-- The front of a stream: an item of the first `n` elements and the new state of the decoder, too little
to tell, or something that the decoder fails on. -/
inductive Front (σ κ : Type*)
  | item (k : κ) (n : ℕ) (s : σ)
  | wait
  | fail

structure Sound (dec : σ → List α → Front σ κ) : Prop where
  taken : ∀ {s xs k n s'}, dec s xs = .item k n s' → 0 < n ∧ n ≤ xs.length
  item_append : ∀ {s xs k n s'} ys, dec s xs = .item k n s' → dec s (xs ++ ys) = .item k n s'
  fail_append : ∀ {s xs} ys, dec s xs = .fail → dec s (xs ++ ys) = .fail

variable (dec : σ → List α → Front σ κ)

def decodeFuel : ℕ → σ → List α → Option (List κ × σ × List α)
  | 0, _, _ => none
  | fuel + 1, s, xs =>
    match dec s xs with
    | .fail => none
    | .wait => some ([], s, xs)
    | .item k n s' => (decodeFuel fuel s' (xs.drop n)).map fun (ks, t) => (k :: ks, t)

/-- The items at the front of a stream up to where the decoder waits, its state there and what is left;
`none` when it fails. -/
def decode (s : σ) (xs : List α) : Option (List κ × σ × List α) := decodeFuel dec (xs.length + 1) s xs

variable {dec}

theorem decode_wait {s : σ} {xs : List α} (h : dec s xs = .wait) : decode dec s xs = some ([], s, xs) := by
  rw [decode, decodeFuel, h]

namespace Sound
variable (hd : Sound dec)
include hd

/-- Until all elements of an item are there, the decoder waits. -/
theorem wait_of_lt {s s' : σ} {xs ys : List α} {k : κ} {n : ℕ} (h : dec s (xs ++ ys) = .item k n s')
    (hlt : xs.length < n) : dec s xs = .wait := by
  cases hfront : dec s xs with
  | wait => rfl
  | fail =>
    rw [hd.fail_append ys hfront] at h
    cases h
  | item k' n' t =>
    have hlen := (hd.taken hfront).2
    rw [hd.item_append ys hfront] at h
    cases h
    omega

theorem decodeFuel_of_le {fuel m : ℕ} {s : σ} {xs : List α} (hm : xs.length < m) (hle : m ≤ fuel) :
    decodeFuel dec fuel s xs = decodeFuel dec m s xs := by
  induction m generalizing fuel s xs with
  | zero => exact absurd hm (Nat.not_lt_zero _)
  | succ m ih =>
    obtain ⟨f, rfl⟩ := Nat.exists_eq_add_one.2 (Nat.lt_of_lt_of_le m.succ_pos hle)
    unfold decodeFuel
    cases hfront : dec s xs with
    | fail => rfl
    | wait => rfl
    | item k n s' =>
      obtain ⟨hpos, hlen⟩ := hd.taken hfront
      have hdrop : (xs.drop n).length < m := by
        rw [List.length_drop]
        omega
      simp only [ih hdrop (Nat.le_of_succ_le_succ hle)]

theorem decode_item {s s' : σ} {xs : List α} {k : κ} {n : ℕ} (h : dec s xs = .item k n s') :
    decode dec s xs = (decode dec s' (xs.drop n)).map fun (ks, t) => (k :: ks, t) := by
  obtain ⟨hpos, hlen⟩ := hd.taken h
  have hfuel := hd.decodeFuel_of_le (s := s') (show (xs.drop n).length < (xs.drop n).length + 1 by omega)
    (show (xs.drop n).length + 1 ≤ xs.length by rw [List.length_drop]; omega)
  rw [decode, decodeFuel, h]
  simp only [hfuel]
  rfl

end Sound

end MutantC.StreamDecoder
