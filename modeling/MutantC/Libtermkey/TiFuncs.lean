import MutantC.Libtermkey.TiDriver

/-! The names of keys in terminfo. The table that is searched for them by halving is not in order at one place,
where a name is missed, and the search takes the NULL at the end for an entry. -/

namespace MutantC.Libtermkey
open CBuffer

section Strcmp

theorem strcmp_eq_iff {a b : List Byte} : strcmp a b = .eq ↔ a = b := by
  induction a generalizing b with
  | nil => cases b <;> simp [strcmp]
  | cons x a ih =>
    cases b with
    | nil => simp [strcmp]
    | cons y b =>
      rw [strcmp]
      split_ifs with hxy hlt
      · rw [ih, hxy]
        simp
      · simp [hxy]
      · simp [hxy]

theorem strcmp_gt_trans {a b c : List Byte} (hab : strcmp a b = .gt) (hbc : strcmp b c = .gt) :
    strcmp a c = .gt := by
  induction a generalizing b c with
  | nil => cases b <;> cases hab
  | cons x a ih =>
    cases c with
    | nil => rfl
    | cons z c =>
      cases b with
      | nil => cases hbc
      | cons y b =>
        rw [strcmp] at hab hbc ⊢
        by_cases hxy : x = y
        · rw [if_pos hxy] at hab
          by_cases hyz : y = z
          · rw [if_pos hyz] at hbc
            rw [if_pos (hxy.trans hyz)]
            exact ih hab hbc
          · rw [if_neg hyz] at hbc
            rw [hxy, if_neg hyz]
            exact hbc
        · rw [if_neg hxy] at hab
          by_cases hyz : y = z
          · rw [← hyz, if_neg hxy]
            exact hab
          · rw [if_neg hyz] at hbc
            split_ifs at hab hbc with hxy' hyz'
            have hzy : z < y := UInt8.lt_of_le_of_ne (UInt8.not_lt.1 hyz') (Ne.symm hyz)
            have hyx : y < x := UInt8.lt_of_le_of_ne (UInt8.not_lt.1 hxy') (Ne.symm hxy)
            have hzx := UInt8.lt_trans hzy hyx
            rw [if_neg (UInt8.ne_of_lt hzx).symm, if_neg (UInt8.lt_asymm hzx)]

end Strcmp

section Search
variable {funcname : List Byte}

theorem searchFuncs_step {fuel start stop : ℕ} {e : String × Sym × BitVec 32}
    (he : funcs[(start + stop) / 2]? = some e) (hne : funcname ≠ bytesOf e.1) (hstop : stop ≠ start + 1) :
    searchFuncs funcname (fuel + 1) start stop =
      if strcmp funcname (bytesOf e.1) = .gt then searchFuncs funcname fuel ((start + stop) / 2) stop
      else searchFuncs funcname fuel start ((start + stop) / 2) := by
  obtain ⟨name, found⟩ := e
  simp only [searchFuncs, he, Option.bind_eq_bind, Option.bind_some, if_neg hstop]
  cases hcmp : strcmp funcname (bytesOf name) with
  | eq => exact absurd (strcmp_eq_iff.1 hcmp) hne
  | lt => rfl
  | gt => rfl

theorem searchFuncs_none {fuel start stop : ℕ} (hne : ∀ e ∈ funcs, funcname ≠ bytesOf e.1) (hlt : start < stop)
    (hstop : stop ≤ funcs.length) (hfuel : stop - start ≤ fuel) :
    searchFuncs funcname fuel start stop = some none := by
  induction fuel generalizing start stop with
  | zero => omega
  | succ fuel ih =>
    have hmid : (start + stop) / 2 < funcs.length := by omega
    obtain ⟨e, he⟩ : ∃ e, funcs[(start + stop) / 2]? = some e := ⟨_, List.getElem?_eq_getElem hmid⟩
    have hne' := hne e (List.mem_of_getElem? he)
    by_cases hone : stop = start + 1
    · obtain ⟨name, found⟩ := e
      simp only [searchFuncs, he, Option.bind_eq_bind, Option.bind_some, if_pos hone]
      cases hcmp : strcmp funcname (bytesOf name) with
      | eq => exact absurd (strcmp_eq_iff.1 hcmp) hne'
      | lt => rfl
      | gt => rfl
    · rw [searchFuncs_step he hne' hone]
      split_ifs
      · exact ih (by omega) hstop (by omega)
      · exact ih (by omega) (by omega) (by omega)

theorem searchFuncs_found : ∀ e ∈ funcs, e.1 ≠ "begin" →
    searchFuncs (bytesOf e.1) funcs.length 0 (funcs.length + 1) = some (some e.2) := by
  decide +kernel

/-- In the range up to the end, a name behind the last one goes up at every round. -/
theorem searchFuncs_upper {fuel start : ℕ} {e : String × Sym × BitVec 32}
    (hne : ∀ e ∈ funcs, funcname ≠ bytesOf e.1) (hlt : start + 1 < (start + 43) / 2)
    (he : funcs[(start + 43) / 2]? = some e) (hup : strcmp (bytesOf "up") (bytesOf e.1) = .gt)
    (hfuel : (start + 43) / 2 - start ≤ fuel)
    (hrest : searchFuncs funcname fuel ((start + 43) / 2) 43 =
      if strcmp funcname (bytesOf "up") = .gt then none else some none) :
    searchFuncs funcname (fuel + 1) start 43 =
      if strcmp funcname (bytesOf "up") = .gt then none else some none := by
  have hmid : (start + 43) / 2 < funcs.length := (List.getElem?_eq_some_iff.1 he).1
  rw [searchFuncs_step he (hne e (List.mem_of_getElem? he)) (by omega), hrest]
  by_cases hgt : strcmp funcname (bytesOf "up") = .gt
  · rw [if_pos (strcmp_gt_trans hgt hup)]
  · rw [if_neg hgt, searchFuncs_none hne (by omega) hmid.le hfuel, ite_self]

/-- A name that is not in the table is not found, but one behind the last name is compared with NULL. -/
theorem searchFuncs_unknown (hne : ∀ e ∈ funcs, funcname ≠ bytesOf e.1) :
    searchFuncs funcname funcs.length 0 (funcs.length + 1) =
      if strcmp funcname (bytesOf "up") = .gt then none else some none := by
  have hlast : searchFuncs funcname 38 40 43 =
      if strcmp funcname (bytesOf "up") = .gt then none else some none := by
    have he : funcs[41]? = some ("up", .up, 0) := rfl
    rw [searchFuncs_step he (hne _ (List.mem_of_getElem? he)) (by decide)]
    split_ifs
    · rfl
    · exact searchFuncs_none hne (by decide) (by decide) (by decide)
  have h37 : searchFuncs funcname 39 37 43 = _ := searchFuncs_upper hne (by decide) rfl rfl (by decide) hlast
  have h32 : searchFuncs funcname 40 32 43 = _ := searchFuncs_upper hne (by decide) rfl rfl (by decide) h37
  have h21 : searchFuncs funcname 41 21 43 = _ := searchFuncs_upper hne (by decide) rfl rfl (by decide) h32
  exact searchFuncs_upper hne (by decide) rfl rfl (by decide) h21

/-- The search finds what a search from one end to the other does, but for `begin`, which stands in front of
`beg`, and for names behind the last one. -/
theorem searchFuncs_eq (funcname : List Byte) :
    searchFuncs funcname funcs.length 0 (funcs.length + 1) =
      if strcmp funcname (bytesOf "up") = .gt then none
      else if funcname = bytesOf "begin" then some none
      else some ((funcs.find? fun e => bytesOf e.1 = funcname).map Prod.snd) := by
  by_cases hmem : ∃ e ∈ funcs, funcname = bytesOf e.1
  · obtain ⟨e, hmem, rfl⟩ := hmem
    have hle : ∀ e ∈ funcs, strcmp (bytesOf e.1) (bytesOf "up") ≠ .gt := by decide +kernel
    rw [if_neg (hle e hmem)]
    by_cases hbegin : e.1 = "begin"
    · rw [if_pos (congrArg bytesOf hbegin), hbegin]
      decide +kernel
    · have hfind : ∀ e ∈ funcs, (funcs.find? fun e' => bytesOf e'.1 = bytesOf e.1) = some e := by decide +kernel
      have hother : ∀ e ∈ funcs, e.1 ≠ "begin" → bytesOf e.1 ≠ bytesOf "begin" := by decide +kernel
      rw [if_neg (hother e hmem hbegin), searchFuncs_found e hmem hbegin, hfind e hmem, Option.map_some]
  · have hne : ∀ e ∈ funcs, funcname ≠ bytesOf e.1 := fun e he heq => hmem ⟨e, he, heq⟩
    have hbegin : funcname ≠ bytesOf "begin" := hne ("begin", .begin, 0) (by decide)
    have hfind : (funcs.find? fun e => bytesOf e.1 = funcname) = none :=
      List.find?_eq_none.2 fun e he heq => hne e he (of_decide_eq_true heq).symm
    rw [searchFuncs_unknown hne, if_neg hbegin, hfind, Option.map_none]

end Search

end MutantC.Libtermkey
