import MutantC.SexpParse.SexpDefs

/-! What the reader does on a token list, without its fuel: it reads a forest between two parentheses,
and falls off the end of the list when two or more of them are open there. -/

namespace MutantC.SexpParse
open CBuffer Brackets

section Fuel

theorem length_of_next {t t' : List Token} (h : next t = some t') : t'.length + 1 = t.length := by
  cases t with
  | nil => cases h
  | cons tok t => exact congrArg (·.length + 1) (Option.some.inj h).symm

theorem readFuel_length (fuel : ℕ) :
    (∀ t r, readFormFuel fuel t = some r → r.2.length ≤ t.length) ∧
      ∀ v t r, readListFuel fuel v t = some r → r.2.length ≤ t.length := by
  induction fuel with
  | zero => exact ⟨fun _ _ h => (Option.some_ne_none _ h.symm).elim,
      fun _ _ _ h => (Option.some_ne_none _ h.symm).elim⟩
  | succ fuel ih =>
    obtain ⟨ihForm, ihList⟩ := ih
    have hitem : ∀ v t r, ((readFormFuel fuel t).bind fun p => (next p.2).bind fun t =>
        readListFuel fuel (listAppend v p.1) t) = some r → r.2.length ≤ t.length := by
      intro v t r h
      obtain ⟨p, hform, h⟩ := Option.bind_eq_some_iff.1 h
      obtain ⟨t', hnext, h⟩ := Option.bind_eq_some_iff.1 h
      have hle := ihForm _ _ hform
      have hlen := length_of_next hnext
      have hrest := ihList _ _ _ h
      omega
    constructor
    · intro t r h
      rcases t with - | ⟨- | - | a, t⟩
      · cases h
      · exact Nat.le_succ_of_le (ihList _ _ _ h)
      · exact (Option.some.inj h) ▸ le_rfl
      · exact (Option.some.inj h) ▸ le_rfl
    · intro v t r h
      rcases t with - | ⟨- | - | a, t⟩
      · exact (Option.some.inj h) ▸ le_rfl
      · exact hitem _ _ _ h
      · exact (Option.some.inj h) ▸ le_rfl
      · exact hitem _ _ _ h

/-- Fuel for two calls a token is enough, and more changes nothing. -/
theorem readFuel_eq (n : ℕ) :
    (∀ m t, 2 * t.length ≤ n → 2 * t.length ≤ m → readFormFuel n t = readFormFuel m t) ∧
      ∀ m v t, 2 * t.length + 1 ≤ n → 2 * t.length + 1 ≤ m →
        readListFuel n v t = readListFuel m v t := by
  induction n with
  | zero =>
    constructor
    · intro m t hn hm
      obtain rfl := List.length_eq_zero_iff.1 (show t.length = 0 by omega)
      cases m with
      | zero => rfl
      | succ m => rfl
    · intro m v t hn hm
      omega
  | succ n ih =>
    obtain ⟨ihForm, ihList⟩ := ih
    constructor
    · intro m t hn hm
      cases m with
      | zero =>
        obtain rfl := List.length_eq_zero_iff.1 (show t.length = 0 by omega)
        rfl
      | succ m =>
        rcases t with - | ⟨- | - | a, t⟩
        · rfl
        · simp only [List.length_cons] at hn hm
          exact ihList m _ t (by omega) (by omega)
        · rfl
        · rfl
    · intro m v t hn hm
      obtain ⟨m, rfl⟩ := Nat.exists_eq_succ_of_ne_zero (show m ≠ 0 by omega)
      -- the two runs read the same item, after which fewer tokens are left
      have hitem : ((readFormFuel n t).bind fun p => (next p.2).bind fun t =>
          readListFuel n (listAppend v p.1) t) = (readFormFuel m t).bind fun p => (next p.2).bind
            fun t => readListFuel m (listAppend v p.1) t := by
        rw [ihForm m t (by omega) (by omega)]
        apply Option.bind_congr
        intro p hp
        apply Option.bind_congr
        intro t' ht'
        have hle := (readFuel_length m).1 _ _ hp
        have hlen := length_of_next ht'
        exact ihList m _ t' (by omega) (by omega)
      rcases t with - | ⟨- | - | a, t⟩
      · rfl
      · exact hitem
      · rfl
      · exact hitem

end Fuel

section Equations
variable (v : ParsedVal) (t : List Token)

theorem readForm_null : readForm [] = none := rfl

theorem readForm_left : readForm (.left :: t) = readList (.cons .null .null) t :=
  (readFuel_eq _).2 _ _ t (by simp only [List.length_cons]; omega) le_rfl

theorem readForm_right : readForm (.right :: t) = some (.null, .right :: t) := rfl

theorem readForm_atom (a : Atom) : readForm (.atom a :: t) = some (atomVal a, .atom a :: t) := rfl

theorem readList_right : readList v (.right :: t) = some (v, .right :: t) := rfl

theorem readList_atom (a : Atom) :
    readList v (.atom a :: t) = readList (listAppend v (atomVal a)) t :=
  (readFuel_eq _).2 _ _ t (by simp only [List.length_cons]; omega) le_rfl

theorem readList_left : readList v (.left :: t) =
    (readList (.cons .null .null) t).bind fun p =>
      (next p.2).bind fun t => readList (listAppend v p.1) t := by
  have hform : readFormFuel (2 * (t.length + 1)) (.left :: t) = readForm (.left :: t) :=
    (readFuel_eq _).1 _ _ (by simp) (by simp)
  have hstep : readList v (.left :: t) = (readFormFuel (2 * (t.length + 1)) (.left :: t)).bind
      fun p => (next p.2).bind fun t' =>
        readListFuel (2 * (t.length + 1)) (listAppend v p.1) t' := rfl
  rw [hstep, hform, readForm_left]
  apply Option.bind_congr
  intro p hp
  apply Option.bind_congr
  intro t' ht'
  have hle := (readFuel_length _).2 _ _ _ hp
  have hlen := length_of_next ht'
  exact (readFuel_eq _).2 _ _ t' (by omega) le_rfl

end Equations

/-! ### The value of a forest -/

def consList : List ParsedVal → ParsedVal
  | [] => .null
  | v :: vs => .cons v (consList vs)

/-- A list as `read_list` builds it: the empty one is a cell without a value. -/
def listVal : List ParsedVal → ParsedVal
  | [] => .cons .null .null
  | vs => consList vs

def values : Forest Atom → List ParsedVal
  | .nil => []
  | .atom a tail => atomVal a :: values tail
  | .group items tail => listVal (values items) :: values tail

theorem listVal_ne_null (vs : List ParsedVal) : listVal vs ≠ .null := by
  cases vs <;> exact fun h => by cases h

theorem atomVal_ne_null (a : Atom) : atomVal a ≠ .null := by
  cases a <;> exact fun h => by cases h

theorem ne_null_of_mem_values {f : Forest Atom} {v : ParsedVal} (h : v ∈ values f) : v ≠ .null := by
  induction f with
  | nil => cases h
  | atom a tail ih =>
    rcases List.mem_cons.1 h with rfl | h
    · exact atomVal_ne_null a
    · exact ih h
  | group items tail _ ih =>
    rcases List.mem_cons.1 h with rfl | h
    · exact listVal_ne_null _
    · exact ih h

theorem setLastCdr_consList (u : ParsedVal) (vs : List ParsedVal) (v : ParsedVal) :
    setLastCdr (consList (u :: vs)) (.cons v .null) = consList (u :: vs ++ [v]) := by
  induction vs generalizing u with
  | nil => rfl
  | cons w vs ih => exact congrArg (ParsedVal.cons u) (ih w)

theorem listAppend_listVal {vs : List ParsedVal} {v : ParsedVal} (hvs : ∀ u ∈ vs, u ≠ .null)
    (hv : v ≠ .null) : listAppend (listVal vs) v = listVal (vs ++ [v]) := by
  unfold listAppend
  rw [if_neg hv]
  cases vs with
  | nil => rfl
  | cons u vs =>
    have hu := hvs u List.mem_cons_self
    have hlast := setLastCdr_consList u vs v
    cases u with
    | null => exact absurd rfl hu
    | cons car cdr => exact hlast
    | symbol s => exact hlast
    | str s => exact hlast
    | int i => exact hlast

theorem readList_flatten (f : Forest Atom) {vs : List ParsedVal} (hvs : ∀ u ∈ vs, u ≠ .null)
    (t : List Token) :
    readList (listVal vs) (flatten f ++ t) = readList (listVal (vs ++ values f)) t := by
  induction f generalizing vs t with
  | nil => rw [values, List.append_nil, flatten, List.nil_append]
  | atom a tail ih =>
    have hvs' : ∀ u ∈ vs ++ [atomVal a], u ≠ .null := by
      intro u hu
      rcases List.mem_append.1 hu with hu | hu
      · exact hvs u hu
      · exact List.mem_singleton.1 hu ▸ atomVal_ne_null a
    rw [flatten, List.cons_append, readList_atom, listAppend_listVal hvs (atomVal_ne_null a), ih hvs',
      values, List.append_assoc, List.singleton_append]
  | group items tail ihi iht =>
    have hvs' : ∀ u ∈ vs ++ [listVal (values items)], u ≠ .null := by
      intro u hu
      rcases List.mem_append.1 hu with hu | hu
      · exact hvs u hu
      · exact List.mem_singleton.1 hu ▸ listVal_ne_null _
    have hinner := ihi (List.forall_mem_nil _) (.right :: (flatten tail ++ t))
    rw [readList_right, List.nil_append] at hinner
    rw [flatten, List.cons_append, List.append_assoc, List.cons_append, readList_left]
    rw [show ParsedVal.cons .null .null = listVal [] from rfl, hinner, Option.bind_some, next,
      Option.bind_some, listAppend_listVal hvs (listVal_ne_null _), iht hvs', values,
      List.append_assoc, List.singleton_append]

theorem readForm_group (f : Forest Atom) (t : List Token) :
    readForm (.left :: (flatten f ++ .right :: t)) = some (listVal (values f), .right :: t) := by
  rw [readForm_left]
  exact readList_flatten f (List.forall_mem_nil _) _

theorem readForm_balanced (f : Forest Atom) :
    readForm (.left :: flatten f) = some (listVal (values f), []) := by
  have hread := readList_flatten f (List.forall_mem_nil _) []
  rw [List.append_nil] at hread
  rw [readForm_left]
  exact hread

/-- With two parentheses open at the end, the outer loop steps from the NULL the inner one left. -/
theorem readList_unclosed {k : ℕ} {t : List Token} (h : Unclosed (k + 1) t) {vs : List ParsedVal}
    (hvs : ∀ u ∈ vs, u ≠ .null) : readList (listVal vs) t = none := by
  induction k generalizing t vs with
  | zero =>
    cases h with
    | opened f h =>
      cases h with
      | balanced g =>
        have hinner := (readForm_left (flatten g)).symm.trans (readForm_balanced g)
        rw [readList_flatten f hvs, readList_left, hinner]
        rfl
  | succ k ih =>
    cases h with
    | opened f h =>
      have hinner := ih h (List.forall_mem_nil _)
      rw [readList_flatten f hvs, readList_left]
      rw [show ParsedVal.cons .null .null = listVal [] from rfl, hinner]
      rfl

theorem readForm_unclosed {k : ℕ} {t : List Token} (h : Unclosed (k + 1) t) :
    readForm (.left :: t) = none := by
  rw [readForm_left]
  exact readList_unclosed h (List.forall_mem_nil _)

/-- What a successful `read_form` has read: nothing at a closing parenthesis, an atom, or a list that is
closed or ends with the tokens. -/
theorem readForm_cases {t r : List Token} {v : ParsedVal} (h : readForm t = some (v, r)) :
    (v = .null ∧ ∃ t', t = .right :: t') ∨ (∃ a t', v = atomVal a ∧ t = .atom a :: t') ∨
      ∃ f, v = listVal (values f) ∧
        ((∃ t', t = .left :: (flatten f ++ .right :: t')) ∨ t = .left :: flatten f) := by
  rcases t with - | ⟨- | - | a, t⟩
  · cases h
  · right
    right
    rcases closed_or_unclosed t with ⟨f, t', rfl⟩ | ⟨k, hk⟩
    · rw [readForm_group] at h
      exact ⟨f, (Prod.mk.inj (Option.some.inj h)).1.symm, Or.inl ⟨t', rfl⟩⟩
    · cases k with
      | zero =>
        cases hk with
        | balanced f =>
          rw [readForm_balanced] at h
          exact ⟨f, (Prod.mk.inj (Option.some.inj h)).1.symm, Or.inr rfl⟩
      | succ k =>
        rw [readForm_unclosed hk] at h
        cases h
  · exact Or.inl ⟨(Prod.mk.inj (Option.some.inj h)).1.symm, t, rfl⟩
  · exact Or.inr (Or.inl ⟨a, t, (Prod.mk.inj (Option.some.inj h)).1.symm, rfl⟩)

/-! ### Values determine their forests -/

theorem consList_injective : Function.Injective consList := by
  intro vs
  induction vs with
  | nil =>
    intro us h
    cases us with
    | nil => rfl
    | cons u us => cases h
  | cons v vs ih =>
    intro us h
    cases us with
    | nil => cases h
    | cons u us =>
      obtain ⟨rfl, htail⟩ := ParsedVal.cons.inj h
      rw [ih htail]

theorem listVal_inj {vs us : List ParsedVal} (hvs : ∀ v ∈ vs, v ≠ .null) (hus : ∀ u ∈ us, u ≠ .null)
    (h : listVal vs = listVal us) : vs = us := by
  cases vs with
  | nil =>
    cases us with
    | nil => rfl
    | cons u us => exact absurd (ParsedVal.cons.inj h).1.symm (hus u List.mem_cons_self)
  | cons v vs =>
    cases us with
    | nil => exact absurd (ParsedVal.cons.inj h).1 (hvs v List.mem_cons_self)
    | cons u us => exact consList_injective h

theorem atomVal_injective : Function.Injective atomVal := by
  intro a b h
  cases a <;> cases b <;> cases h <;> rfl

theorem atomVal_ne_listVal (a : Atom) (vs : List ParsedVal) : atomVal a ≠ listVal vs := by
  cases a <;> cases vs <;> exact fun h => by cases h

theorem values_injective : Function.Injective values := by
  intro f
  induction f with
  | nil =>
    intro g h
    cases g with
    | nil => rfl
    | atom b tail => cases h
    | group items tail => cases h
  | atom a tail ih =>
    intro g h
    cases g with
    | nil => cases h
    | atom b tail' =>
      obtain ⟨hhead, htail⟩ := List.cons.inj h
      rw [atomVal_injective hhead, ih htail]
    | group items tail' => exact absurd (List.cons.inj h).1 (atomVal_ne_listVal a _)
  | group items tail ihi iht =>
    intro g h
    cases g with
    | nil => cases h
    | atom b tail' => exact absurd (List.cons.inj h).1.symm (atomVal_ne_listVal b _)
    | group items' tail' =>
      obtain ⟨hhead, htail⟩ := List.cons.inj h
      have hitems := listVal_inj (fun _ => ne_null_of_mem_values) (fun _ => ne_null_of_mem_values) hhead
      rw [ihi hitems, iht htail]

theorem listVal_values_inj {f g : Forest Atom} (h : listVal (values f) = listVal (values g)) :
    f = g :=
  values_injective
    (listVal_inj (fun _ => ne_null_of_mem_values) (fun _ => ne_null_of_mem_values) h)

end MutantC.SexpParse
