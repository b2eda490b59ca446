import MutantC.Lib.Decimal
import MutantC.Libtermkey.CsiFaults

/-! CSI sequences as a terminal writes them, and that the driver reads from one the command and the arguments
that were written. -/

namespace MutantC.Libtermkey
open CBuffer Decimal

/-- An argument that is left out is -1. -/
def csiArg (arg : ℤ) : List Byte := if arg = -1 then [] else decimal arg.toNat

def csiParams : List ℤ → List Byte
  | [] => []
  | [arg] => csiArg arg
  | arg :: args => csiArg arg ++ 59 :: csiParams args

def optionalByte (b : Byte) : List Byte := if b = 0 then [] else [b]

def csiBody (cmd : CsiCmd) (args : List ℤ) : List Byte :=
  optionalByte cmd.initial ++ (csiParams args ++ optionalByte cmd.intermediate)

def csiSequence (cmd : CsiCmd) (args : List ℤ) : List Byte := csiBody cmd args ++ [cmd.final]

/-- The command is made of bytes of the right kinds, there is room for the arguments, each is in the range of
a `long`, and the last one is not left out. -/
structure Writable (cmd : CsiCmd) (args : List ℤ) : Prop where
  final : 0x40 ≤ cmd.final ∧ cmd.final < 0x80
  initial : cmd.initial = 0 ∨ 0x3c ≤ cmd.initial ∧ cmd.initial ≤ 0x3f
  intermediate : cmd.intermediate = 0 ∨ Intermediate cmd.intermediate
  room : args.length ≤ 16
  range : ∀ arg ∈ args, -1 ≤ arg ∧ arg < 2 ^ 63
  last : args.getLast? ≠ some (-1)

section Args

theorem foldl_digits_mono (ds : List Byte) (v : ℕ) : v ≤ ds.foldl (fun v d => 10 * v + digitValue d) v := by
  induction ds generalizing v with
  | nil => exact le_rfl
  | cons d ds ih => exact le_trans (show v ≤ 10 * v + digitValue d by omega) (ih _)

theorem csiArgs_digits {ds : List Byte} (hds : ∀ d ∈ ds, IsDigit d) (w : List Byte) (args : List ℤ) (v : ℕ)
    (hlt : ds.foldl (fun v d => 10 * v + digitValue d) v < 2 ^ 63) :
    csiArgs (ds ++ w) args (some v) =
      csiArgs w args (some (ds.foldl (fun v d => 10 * v + digitValue d) v : ℕ)) := by
  induction ds generalizing v with
  | nil => rfl
  | cons d ds ih =>
    obtain ⟨hd, hds⟩ := List.forall_mem_cons.1 hds
    have hfits : 10 * v + digitValue d < 2 ^ 63 := lt_of_le_of_lt (foldl_digits_mono ds _) hlt
    have hlong : toLong ((v : ℤ) * 10 + (d.toNat - 48 : ℕ)) = (10 * v + digitValue d : ℕ) := by
      unfold toLong digitValue at *
      rw [Int.bmod_eq_of_le] <;> omega
    rw [List.cons_append, csiArgs_digit hd, csiDigit, Option.bind_some, hlong]
    exact ih hds _ hlt

theorem csiArgs_decimal {n : ℕ} (hlt : n < 2 ^ 63) (w : List Byte) {args : List ℤ} (hroom : args.length < 16) :
    csiArgs (decimal n ++ w) args none = csiArgs w args (some n) := by
  have hdigits : ∀ d ∈ decimal n, IsDigit d := fun d => isDigit_of_mem_decimal
  have hvalue := digitsValue_decimal n
  unfold digitsValue at hvalue
  cases hdecimal : decimal n with
  | nil => exact absurd hdecimal (decimal_ne_nil n)
  | cons d ds =>
    rw [hdecimal] at hdigits hvalue
    obtain ⟨hd, hds⟩ := List.forall_mem_cons.1 hdigits
    rw [List.foldl_cons, Nat.mul_zero, Nat.zero_add] at hvalue
    have hfirst : csiDigit args (d.toNat - 48) none = some (digitValue d : ℤ) := if_pos hroom
    rw [List.cons_append, csiArgs_digit hd, hfirst, Option.bind_some, csiArgs_digits hds w args _ (by rw [hvalue]; exact hlt),
      hvalue]

theorem csiArgs_end {b : Byte} (hb : b = 0 ∨ Intermediate b) (args : List ℤ) (present : Option ℤ) :
    csiArgs (optionalByte b) args present = some (args ++ present.toList, b) := by
  rcases hb with rfl | hb
  · rfl
  · have hne : b ≠ 0 := by
      rintro rfl
      exact absurd hb.1 (by decide)
    rw [optionalByte, if_neg hne, csiArgs_intermediate hb]

theorem csiArgs_csiParams {b : Byte} (hb : b = 0 ∨ Intermediate b) {args : List ℤ} (done : List ℤ)
    (hroom : done.length + args.length ≤ 16) (hrange : ∀ arg ∈ args, -1 ≤ arg ∧ arg < 2 ^ 63)
    (hlast : args.getLast? ≠ some (-1)) :
    csiArgs (csiParams args ++ optionalByte b) done none = some (done ++ args, b) := by
  induction args generalizing done with
  | nil => exact csiArgs_end hb done none
  | cons arg args ih =>
    obtain ⟨⟨hlow, hhigh⟩, hrange⟩ := List.forall_mem_cons.1 hrange
    rw [List.length_cons] at hroom
    cases args with
    | nil =>
      have hne : arg ≠ -1 := fun heq => hlast (by rw [heq]; rfl)
      rw [csiParams, csiArg, if_neg hne, csiArgs_decimal (by omega) _ (by omega), csiArgs_end hb,
        Int.toNat_of_nonneg (by omega)]
      rfl
    | cons next args =>
      have hrest := ih (done ++ [arg]) (by simp only [List.length_append, List.length_singleton]; omega) hrange hlast
      rw [List.append_assoc, List.singleton_append] at hrest
      rw [csiParams, List.append_assoc, List.cons_append, ← hrest]
      · by_cases hne : arg = -1
        · rw [csiArg, if_pos hne, List.nil_append, csiArgs_separator _ (by omega) fun h => absurd rfl h, if_pos (by omega),
            hne]
          rfl
        · rw [csiArg, if_neg hne, csiArgs_decimal (by omega) _ (by omega),
            csiArgs_separator _ (by omega) fun _ => by omega, if_pos (by omega), Int.toNat_of_nonneg (by omega)]
          rfl
      · exact List.cons_ne_nil _ _

end Args

section Sequence
variable {cmd : CsiCmd} {args : List ℤ}

def InBody (b : Byte) : Prop := 0x20 ≤ b ∧ b ≤ 0x3f

theorem csiArg_inBody {arg : ℤ} {b : Byte} (hb : b ∈ csiArg arg) : InBody b ∧ b < 0x3c := by
  unfold csiArg at hb
  split_ifs at hb
  · cases hb
  · obtain ⟨hle, hge⟩ := isDigit_of_mem_decimal hb
    exact ⟨⟨UInt8.le_trans (by decide) hle, UInt8.le_trans hge (by decide)⟩, UInt8.lt_of_le_of_lt hge (by decide)⟩

theorem csiParams_inBody {args : List ℤ} {b : Byte} (hb : b ∈ csiParams args) : InBody b ∧ b < 0x3c := by
  induction args with
  | nil => cases hb
  | cons arg args ih =>
    cases args with
    | nil => exact csiArg_inBody hb
    | cons next args =>
      rw [csiParams, List.mem_append, List.mem_cons] at hb
      · rcases hb with hb | rfl | hb
        · exact csiArg_inBody hb
        · exact ⟨⟨by decide, by decide⟩, by decide⟩
        · exact ih hb
      · exact List.cons_ne_nil _ _

theorem csiBody_inBody (h : Writable cmd args) {b : Byte} (hb : b ∈ csiBody cmd args) : InBody b := by
  rw [csiBody, List.mem_append, List.mem_append] at hb
  rcases hb with hb | hb | hb
  · unfold optionalByte at hb
    split_ifs at hb with hzero
    · cases hb
    · rw [List.mem_singleton.1 hb]
      obtain ⟨hle, hge⟩ := h.initial.resolve_left hzero
      exact ⟨UInt8.le_trans (by decide) hle, hge⟩
  · exact (csiParams_inBody hb).1
  · unfold optionalByte at hb
    split_ifs at hb with hzero
    · cases hb
    · rw [List.mem_singleton.1 hb]
      obtain ⟨hle, hge⟩ := h.intermediate.resolve_left hzero
      exact ⟨hle, UInt8.le_trans hge (by decide)⟩

theorem splitFinal_csiSequence (h : Writable cmd args) (rest : List Byte) :
    splitFinal (csiSequence cmd args ++ rest) = some (csiBody cmd args, cmd.final) := by
  have hbody : ∀ body : List Byte, (∀ b ∈ body, InBody b) →
      splitFinal (body ++ cmd.final :: rest) = some (body, cmd.final) := by
    intro body hall
    induction body with
    | nil => exact if_pos h.final
    | cons b body ih =>
      obtain ⟨hb, hall⟩ := List.forall_mem_cons.1 hall
      have hlow : ¬ (0x40 ≤ b ∧ b < 0x80) := fun hfinal => absurd (UInt8.le_trans hfinal.1 hb.2) (by decide)
      rw [List.cons_append, splitFinal, if_neg hlow, ih hall]
      rfl
  rw [csiSequence, List.append_assoc]
  exact hbody _ fun b hb => csiBody_inBody h hb

theorem parseCsi_plain {body : List Byte} {final : Byte} (h : ∀ b ∈ body.head?, b < 0x3c) :
    parseCsi body final =
      (csiArgs body [] none).map fun (args, intermediate) => (⟨final, 0, intermediate⟩, args) := by
  cases body with
  | nil => rfl
  | cons b rest =>
    have hb : b < 0x3c := h b rfl
    rw [parseCsi, if_neg fun hinitial => absurd hinitial.1 (UInt8.not_le.2 hb)]

theorem parseCsi_csiBody (h : Writable cmd args) : parseCsi (csiBody cmd args) cmd.final = some (cmd, args) := by
  have hargs := csiArgs_csiParams h.intermediate [] (by simpa using h.room) h.range h.last
  rw [List.nil_append] at hargs
  rw [csiBody]
  by_cases hzero : cmd.initial = 0
  · have hnone : optionalByte cmd.initial = [] := if_pos hzero
    have hhead : ∀ b ∈ (csiParams args ++ optionalByte cmd.intermediate).head?, b < 0x3c := by
      intro b hb
      rcases List.mem_append.1 (List.mem_of_mem_head? hb) with hmem | hmem
      · exact (csiParams_inBody hmem).2
      · unfold optionalByte at hmem
        split_ifs at hmem with hplain
        · cases hmem
        · rw [List.mem_singleton.1 hmem]
          exact UInt8.lt_of_le_of_lt (h.intermediate.resolve_left hplain).2 (by decide)
    rw [hnone, List.nil_append, parseCsi_plain hhead, hargs, Option.map_some, ← hzero]
  · have hsome : optionalByte cmd.initial = [cmd.initial] := if_neg hzero
    rw [hsome, List.singleton_append, parseCsi, if_pos (h.initial.resolve_left hzero), hargs, Option.map_some]

end Sequence

end MutantC.Libtermkey
