import MutantC.Libtermkey.CsiRoundTrip
import MutantC.Libtermkey.TermkeyStable
import MutantC.Libtermkey.TiTrie

/-! Terminfo in front of the CSI driver: sequences of a terminal on whose beginnings the CSI driver waits too, so
that the two drivers do not cut into each other's sequences. -/

namespace MutantC.Libtermkey
open CBuffer Iteration Tries

/-- A byte, an escape with a byte, and the usual shapes of SS3 and CSI sequences. -/
inductive KeySequence : List Byte → Prop
  | byte (b : Byte) : KeySequence [b]
  | alt (b : Byte) : KeySequence [0x1b, b]
  | ss3 (b : Byte) : KeySequence [0x1b, 0x4f, b]
  | csi {body : List Byte} (h : ∀ b ∈ body, InBody b) (final : Byte) : KeySequence (0x1b :: 0x5b :: (body ++ [final]))

section Beginnings
variable {s : Interpretation} {csi : TermKeyCsi} {w seq : List Byte}

theorem splitFinal_inBody (h : ∀ b ∈ w, InBody b) : splitFinal w = none := by
  induction w with
  | nil => rfl
  | cons b w ih =>
    obtain ⟨hb, hw⟩ := List.forall_mem_cons.1 h
    have hlow : ¬ (0x40 ≤ b ∧ b < 0x80) := fun hfinal => absurd (UInt8.le_trans hfinal.1 hb.2) (by decide)
    rw [splitFinal, if_neg hlow, ih hw]
    rfl

theorem csiPeekkey_inBody {body : List Byte} (h : ∀ b ∈ body, InBody b) :
    csiPeekkey s csi (0x1b :: 0x5b :: body) false = some (.undecided .again id csi) := by
  change peekkeyCsi s csi (0x1b :: 0x5b :: body) 2 false = _
  rw [peekkeyCsi, List.drop_succ_cons, List.drop_succ_cons, List.drop_zero, splitFinal_inBody h]
  rfl

theorem KeySequence.defers (h : KeySequence seq) (hpre : w <+: seq) (hne : w ≠ seq) (hw : w ≠ []) :
    Defers (csiPeekkey s csi w false) := by
  have hinit : ∀ init final, seq = init ++ [final] → w <+: init := by
    rintro init final rfl
    exact (List.prefix_concat_iff.1 hpre).resolve_left hne
  have hescape : Defers (csiPeekkey s csi [0x1b] false) := ⟨_, rfl, Or.inr rfl⟩
  obtain ⟨b, w, rfl⟩ := List.exists_cons_of_ne_nil hw
  cases h with
  | byte c => exact absurd (List.prefix_nil.1 (hinit [] c rfl)) hw
  | alt c =>
    obtain ⟨rfl, hnil⟩ := List.cons_prefix_cons.1 (hinit [0x1b] c rfl)
    rw [List.prefix_nil.1 hnil]
    exact hescape
  | ss3 c =>
    obtain ⟨rfl, hrest⟩ := List.cons_prefix_cons.1 (hinit [0x1b, 0x4f] c rfl)
    cases w with
    | nil => exact hescape
    | cons b w =>
      obtain ⟨rfl, hnil⟩ := List.cons_prefix_cons.1 hrest
      rw [List.prefix_nil.1 hnil]
      exact ⟨_, rfl, Or.inl rfl⟩
  | @csi body hbody final =>
    obtain ⟨rfl, hrest⟩ := List.cons_prefix_cons.1 (hinit (0x1b :: 0x5b :: body) final rfl)
    cases w with
    | nil => exact hescape
    | cons b w =>
      obtain ⟨rfl, hinside⟩ := List.cons_prefix_cons.1 hrest
      exact ⟨_, csiPeekkey_inBody fun b hb => hbody b (hinside.subset hb), Or.inl rfl⟩

theorem csiPeekkey_mouse (hw : w.length < 3) :
    csiPeekkey s csi ([0x1b, 0x5b, 0x4d] ++ w) false = some (.undecided .again id csi) := by
  match w, hw with
  | [], _ => rfl
  | [_], _ => rfl
  | [_, _], _ => rfl

theorem KeySequence.second {b : Byte} (h : KeySequence seq) (hpre : 0x1b :: b :: w <+: seq)
    (hne : 0x1b :: b :: w ≠ seq) : b = 0x4f ∨ b = 0x5b := by
  cases h with
  | byte c => exact absurd (List.cons_prefix_cons.1 hpre).2 (by simp)
  | alt c =>
    obtain ⟨-, hpre⟩ := List.cons_prefix_cons.1 hpre
    obtain ⟨rfl, hnil⟩ := List.cons_prefix_cons.1 hpre
    exact absurd (by rw [List.prefix_nil.1 hnil]) hne
  | ss3 c => exact Or.inl (List.cons_prefix_cons.1 (List.cons_prefix_cons.1 hpre).2).1
  | csi hbody final => exact Or.inr (List.cons_prefix_cons.1 (List.cons_prefix_cons.1 hpre).2).1

end Beginnings

section Table
variable {s : Settings} {csi : TermKeyCsi} {root : TrieNode} {table : List (List Byte × TrieLeaf)} {w : List Byte}

theorem tableReply_again (h : (tableReply csi false table w).res = .again) :
    (∃ e ∈ table, w <+: e.1 ∧ w ≠ e.1) ∨ ∃ e ∈ table, e.2 = .mouse ∧ ∃ rest, w = e.1 ++ rest ∧ rest.length < 3 := by
  unfold tableReply at h
  cases hfind : table.find? fun e => e.1 <+: w with
  | some e =>
    obtain ⟨seq, leaf⟩ := e
    obtain ⟨rest, rfl⟩ : seq <+: w := by simpa using List.find?_some hfind
    rw [hfind] at h
    cases leaf with
    | key info => cases h
    | mouse =>
      refine Or.inr ⟨_, List.mem_of_find?_eq_some hfind, rfl, rest, rfl, ?_⟩
      dsimp only at h
      rw [List.drop_left] at h
      match rest, h with
      | [], _ => exact Nat.succ_pos 2
      | [_], _ => exact Nat.lt_of_succ_lt (Nat.lt_succ_self 2)
      | [_, _], _ => exact Nat.lt_succ_self 2
      | _ :: _ :: _ :: _, h => cases h
  | none =>
    rw [hfind] at h
    have hinside : (∃ e ∈ table, w <+: e.1) ∧ ¬ false = true := by
      by_contra hnot
      rw [if_neg hnot] at h
      cases h
    obtain ⟨⟨e, hmem, hpre⟩, -⟩ := hinside
    refine Or.inl ⟨e, hmem, hpre, ?_⟩
    rintro rfl
    exact List.find?_eq_none.1 hfind e hmem (decide_eq_true List.prefix_rfl)

theorem patient_table (hs : s.drivers = [.ti root, .csi])
    (hroot : ∀ csi w, w ≠ [] → tiPeekkey s.toInterpretation csi root w false = some (tableReply csi false table w))
    (hkeys : ∀ e ∈ table, KeySequence e.1 ∧ (e.2 = .mouse → e.1 = [0x1b, 0x5b, 0x4d])) : s.Patient where
  defers csi w := by
    rw [hs, List.pairwise_pair]
    rintro (⟨r, hr, hagain⟩ | ⟨hcsi, -⟩)
    · change tiPeekkey s.toInterpretation csi root w false = some r at hr
      by_cases hw : w = []
      · subst hw
        cases hr
        unfold Reply.empty at hagain
        split_ifs at hagain
        all_goals cases hagain
      · rw [hroot csi w hw] at hr
        cases hr
        rcases tableReply_again hagain with ⟨e, hmem, hpre, hne⟩ | ⟨e, hmem, hmouse, rest, rfl, hrest⟩
        · exact (hkeys e hmem).1.defers hpre hne hw
        · rw [(hkeys e hmem).2 hmouse]
          exact ⟨_, csiPeekkey_mouse hrest, Or.inl rfl⟩
    · cases hcsi
  plain csi root' b w hmem := by
    rintro ⟨r, hr, hagain⟩
    rw [hs, List.mem_cons, List.mem_singleton] at hmem
    obtain rfl : root' = root := by
      rcases hmem with heq | heq
      · exact Driver.ti.inj heq
      · cases heq
    rw [hroot csi _ (List.cons_ne_nil _ _)] at hr
    cases hr
    have hsecond : b = 0x4f ∨ b = 0x5b := by
      rcases tableReply_again hagain with ⟨e, hmem, hpre, hne⟩ | ⟨e, hmem, hmouse, rest, heq, -⟩
      · exact (hkeys e hmem).1.second hpre hne
      · rw [(hkeys e hmem).2 hmouse] at heq
        cases heq
        exact Or.inr rfl
    rcases hsecond with rfl | rfl
    · decide
    · decide

end Table

section Vt220

/-- Keys of a vt220 as terminfo has them. -/
def vt220 : List (List Byte × Option (List Byte)) :=
  [(bytesOf "key_backspace", some [0x08]), (bytesOf "key_dc", some [0x1b, 0x5b, 0x33, 0x7e]),
    (bytesOf "key_f1", some [0x1b, 0x4f, 0x50]), (bytesOf "key_f6", some [0x1b, 0x5b, 0x31, 0x37, 0x7e]),
    (bytesOf "key_left", some [0x1b, 0x5b, 0x44]), (bytesOf "key_up", some [0x1b, 0x5b, 0x41])]

def vt220Table : List (List Byte × TrieLeaf) :=
  [([0x08], .key (symInfo .backspace)), ([0x1b, 0x5b, 0x33, 0x7e], .key (symInfo .delete)),
    ([0x1b, 0x4f, 0x50], .key (functionInfo 1)), ([0x1b, 0x5b, 0x31, 0x37, 0x7e], .key (functionInfo 6)),
    ([0x1b, 0x5b, 0x44], .key (symInfo .left)), ([0x1b, 0x5b, 0x41], .key (symInfo .up))]

theorem vt220_keySequence : ∀ e ∈ vt220Table, KeySequence e.1 ∧ e.2 ≠ .mouse := by
  have hbody : ∀ n ∈ [0x31, 0x33, 0x37], InBody (UInt8.ofNat n) := by
    unfold InBody
    decide
  have hcsi : ∀ body : List Byte, (∀ b ∈ body, InBody b) → ∀ final, KeySequence (0x1b :: 0x5b :: (body ++ [final])) :=
    fun _ h final => .csi h final
  intro e he
  simp only [vt220Table, List.mem_cons, List.not_mem_nil, or_false] at he
  rcases he with rfl | rfl | rfl | rfl | rfl | rfl
  · exact ⟨.byte _, TrieLeaf.noConfusion⟩
  · exact ⟨hcsi [0x33] (by simpa using hbody 0x33 (by decide)) 0x7e, TrieLeaf.noConfusion⟩
  · exact ⟨.ss3 _, TrieLeaf.noConfusion⟩
  · exact ⟨hcsi [0x31, 0x37] (by simpa using ⟨hbody 0x31 (by decide), hbody 0x37 (by decide)⟩) 0x7e,
      TrieLeaf.noConfusion⟩
  · exact ⟨hcsi [] (by simp) 0x44, TrieLeaf.noConfusion⟩
  · exact ⟨hcsi [] (by simp) 0x41, TrieLeaf.noConfusion⟩

theorem loadTerminfo_vt220 : ∃ root, loadTerminfo vt220 = some root ∧
    (∀ s csi w, w ≠ [] → tiPeekkey s csi root w false = some (tableReply csi false vt220Table w)) ∧
    ∀ s : Settings, s.drivers = [.ti root, .csi] → s.Patient := by
  have htable : run addString [] vt220 = some vt220Table := by decide +kernel
  obtain ⟨root, hload, hroot⟩ := loadTerminfo_of_table htable
  refine ⟨root, hload, fun s csi w => hroot s csi w false, fun s hs => ?_⟩
  exact patient_table hs (fun csi w => hroot s.toInterpretation csi w false) fun e he =>
    ⟨(vt220_keySequence e he).1, fun hmouse => absurd hmouse (vt220_keySequence e he).2⟩

end Vt220

end MutantC.Libtermkey
