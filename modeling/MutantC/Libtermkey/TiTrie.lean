import MutantC.Libtermkey.TiDriver

/-! The trie of the terminfo driver: sequences are inserted into nodes of full extent, which are compressed
when all are there. The trie leads a string to what the list of the sequences says of it. -/

namespace MutantC.Libtermkey
open CBuffer Iteration Tries

def Full : TrieNode → Prop
  | .arr min max kids => min = 0 ∧ max = 0xff ∧ ∀ i, Full (kids i)
  | _ => True

section Insert
variable {p p' next : TrieNode} {b : Byte} {seq : List Byte} {leaf : TrieLeaf}

theorem child_full {kids : ℕ → TrieNode} (c : Byte) : (Trie.arr 0 0xff kids).child c = kids c.toNat := by
  have hc : ¬ (c < 0 ∨ 0xff < c) := by
    rw [UInt8.lt_iff_toNat_lt, UInt8.lt_iff_toNat_lt]
    have hlt := c.toNat_lt
    simp only [UInt8.toNat_ofNat]
    omega
  exact if_neg hc

theorem Full.child (h : Full p) (c : Byte) : Full (p.child c) := by
  cases p with
  | null => trivial
  | leaf leaf => trivial
  | arr min max kids =>
    obtain ⟨rfl, rfl, hkids⟩ := h
    rw [child_full]
    exact hkids _

theorem exists_kids (h : Full p) (hp : p.place = .inside) :
    ∃ kids, p = .arr 0 0xff kids ∧ ∀ i, Full (kids i) := by
  cases p with
  | null => cases hp
  | leaf leaf => cases hp
  | arr min max kids =>
    obtain ⟨rfl, rfl, hkids⟩ := h
    exact ⟨kids, rfl, hkids⟩

theorem setNext_full (h : Full p) (hp : p.place = .inside) (b : Byte) (hnext : Full next) :
    ∃ p', setNext p b next = some p' ∧ Full p' ∧ p'.place = .inside ∧
      ∀ c, p'.child c = if c = b then next else p.child c := by
  obtain ⟨kids, rfl, hkids⟩ := exists_kids h hp
  have hb : ¬ (b < 0 ∨ 0xff < b) := by
    rw [UInt8.lt_iff_toNat_lt, UInt8.lt_iff_toNat_lt]
    have hlt := b.toNat_lt
    simp only [UInt8.toNat_ofNat]
    omega
  refine ⟨_, if_neg hb, ⟨rfl, rfl, fun i => ?_⟩, rfl, fun c => ?_⟩
  · dsimp only
    split_ifs
    · exact hnext
    · exact hkids i
  · rw [child_full, child_full]
    by_cases hc : c = b
    · rw [if_pos hc, if_pos (by rw [hc]; rfl)]
    · rw [if_neg hc]
      exact if_neg fun heq => hc (UInt8.toNat_inj.1 heq)

theorem Extended.cons {next' : TrieNode} (hp : p.place = .inside) (hp' : p'.place = .inside)
    (hchild : ∀ c, p'.child c = if c = b then next' else p.child c)
    (hext : Extended (p.child b) next' seq leaf) : Extended p p' (b :: seq) leaf := by
  intro w
  cases w with
  | nil => simp [hp, hp']
  | cons c w =>
    rw [Trie.lookup_cons, hchild, Trie.lookup_cons]
    by_cases hc : c = b
    · subst hc
      rw [if_pos rfl, hext w]
      exact if_congr (by simp) rfl (if_congr (by simp) rfl rfl)
    · simp [hc]

theorem newPath_full (seq : List Byte) (leaf : TrieLeaf) :
    ∃ p', newPath seq (.leaf leaf) = some p' ∧ Full p' ∧ Extended .null p' seq leaf := by
  induction seq with
  | nil =>
    refine ⟨_, rfl, trivial, fun w => ?_⟩
    cases w with
    | nil => rfl
    | cons b w => simp
  | cons b seq ih =>
    obtain ⟨next, hnext, hfull, hext⟩ := ih
    have hnew : Full (newNodeArr 0 0xff) := ⟨rfl, rfl, fun _ => trivial⟩
    obtain ⟨p', hset, hfull', hplace, hchild⟩ := setNext_full hnew rfl b hfull
    refine ⟨p', by rw [newPath, hnext, Option.bind_eq_bind, Option.bind_some]; exact hset, hfull', fun w => ?_⟩
    have hbelow : (newNodeArr 0 0xff).child b = .null := child_full b
    cases w with
    | nil => simp [hplace]
    | cons c w =>
      rw [Trie.lookup_cons, hchild]
      by_cases hc : c = b
      · rw [if_pos hc, hext w, hc]
        simp
      · have hother : (newNodeArr 0 0xff).child c = .null := child_full c
        simp [hc, hother]

theorem lookupNext_inside (h : Full p) (hplace : p.place = .inside) (b : Byte) :
    lookupNext p b = some (p.child b) := by
  obtain ⟨kids, rfl, -⟩ := exists_kids h hplace
  rfl

theorem insertSeq_of_null {node : TrieNode} (h : Full p) (hplace : p.place = .inside) (hnull : p.child b = .null) :
    insertSeq p (b :: seq) node = (newPath seq node).bind (setNext p b) := by
  rw [insertSeq, lookupNext_inside h hplace, Option.bind_eq_bind, Option.bind_some, hnull]

theorem insertSeq_of_child {node : TrieNode} (h : Full p) (hplace : p.place = .inside) (hne : p.child b ≠ .null) :
    insertSeq p (b :: seq) node = (insertSeq (p.child b) seq node).bind (setNext p b) := by
  rw [insertSeq, lookupNext_inside h hplace, Option.bind_eq_bind, Option.bind_some]
  cases hkid : p.child b with
  | null => exact absurd hkid hne
  | leaf leaf => rfl
  | arr min max kids => rfl

theorem lookup_ne_value (hplace : p.place = .inside) {u : List Byte} {x : TrieLeaf}
    (hfree : ∀ u', u' <+: seq → u' ≠ seq → (p.child b).lookup u' ≠ .value x) (hpre : u <+: b :: seq)
    (hne : u ≠ b :: seq) : p.lookup u ≠ .value x := by
  cases u with
  | nil => simp [hplace]
  | cons c u =>
    obtain ⟨rfl, hpre'⟩ := List.cons_prefix_cons.1 hpre
    exact hfree u hpre' (by simpa using hne)

/-- A sequence that leads nowhere is added; one that leads somewhere changes nothing; one that goes on behind
a key is a call of `abort`. -/
theorem insertSeq_cases (h : Full p) (hp : p ≠ .null) (seq : List Byte) (leaf : TrieLeaf) :
    (insertSeq p seq (.leaf leaf) = none ∧ ∃ u x, u <+: seq ∧ u ≠ seq ∧ p.lookup u = .value x) ∨
      ∃ p', insertSeq p seq (.leaf leaf) = some p' ∧ Full p' ∧ p'.place = p.place ∧
        (∀ u x, u <+: seq → u ≠ seq → p.lookup u ≠ .value x) ∧
        (p.lookup seq = .off → Extended p p' seq leaf) ∧
        (p.lookup seq ≠ .off → ∀ w, p'.lookup w = p.lookup w) := by
  induction seq generalizing p with
  | nil =>
    refine Or.inr ⟨p, rfl, h, rfl, fun u x hpre hne => absurd (List.prefix_nil.1 hpre) hne, fun hoff => ?_,
      fun _ _ => rfl⟩
    cases p with
    | null => exact absurd rfl hp
    | leaf leaf => cases hoff
    | arr min max kids => cases hoff
  | cons b seq ih =>
    by_cases hplace : p.place = .inside
    · by_cases hnull : p.child b = .null
      · obtain ⟨next, hpath, hfull, hext⟩ := newPath_full seq leaf
        obtain ⟨p', hset, hfull', hplace', hchild⟩ := setNext_full h hplace b hfull
        refine Or.inr ⟨p', ?_, hfull', by rw [hplace, hplace'], fun u x => ?_, fun _ => ?_, fun hoff => ?_⟩
        · rw [insertSeq_of_null h hplace hnull, hpath, Option.bind_some, hset]
        · exact lookup_ne_value hplace fun u' _ _ => by simp [hnull]
        · exact Extended.cons hplace hplace' hchild (by rw [hnull]; exact hext)
        · exact absurd (by simp [hnull]) hoff
      · rw [insertSeq_of_child h hplace hnull]
        rcases ih (h.child b) hnull with ⟨hnone, u, x, hpre, hne, hvalue⟩ | ⟨next, hins, hfull, -, hfree, hoff, hon⟩
        · refine Or.inl ⟨by rw [hnone, Option.bind_none], b :: u, x, ?_, ?_, hvalue⟩
          · exact List.cons_prefix_cons.2 ⟨rfl, hpre⟩
          · simpa using hne
        · obtain ⟨p', hset, hfull', hplace', hchild⟩ := setNext_full h hplace b hfull
          refine Or.inr ⟨p', by rw [hins, Option.bind_some, hset], hfull', by rw [hplace, hplace'], fun u x => ?_,
            fun hseq => ?_, fun hseq w => ?_⟩
          · exact lookup_ne_value hplace fun u' => hfree u' x
          · exact Extended.cons hplace hplace' hchild (hoff hseq)
          · cases w with
            | nil => simp [hplace, hplace']
            | cons c w =>
              rw [Trie.lookup_cons, hchild, Trie.lookup_cons]
              split_ifs with hc
              · rw [hc]
                exact hon hseq w
              · rfl
    · cases p with
      | null => exact absurd rfl hp
      | leaf x => exact Or.inl ⟨rfl, [], x, List.nil_prefix, (List.cons_ne_nil _ _).symm, rfl⟩
      | arr min max kids => exact absurd rfl hplace

end Insert

section Table
variable {root root' : TrieNode} {table table' : List (List Byte × TrieLeaf)}

def addKey (table : List (List Byte × TrieLeaf)) (seq : List Byte) (leaf : TrieLeaf) :
    Option (List (List Byte × TrieLeaf)) :=
  if ∃ e ∈ table, e.1 <+: seq ∧ e.1 ≠ seq then none
  else if seq = [] ∨ ∃ e ∈ table, seq <+: e.1 then some table
  else some (table ++ [(seq, leaf)])

/-- A trie under construction, with the sequences that are in it. -/
structure Holding (root : TrieNode) (table : List (List Byte × TrieLeaf)) : Prop where
  full : Full root
  place : root.place = .inside
  represents : Represents root table

theorem holding_new : Holding (newNodeArr 0 0xff) [] where
  full := ⟨rfl, rfl, fun _ => trivial⟩
  place := rfl
  represents := by
    have hchild : ∀ c, (newNodeArr 0 0xff).child c = .null := child_full
    constructor
    · intro w v
      cases w with
      | nil => simp [newNodeArr, Trie.place]
      | cons c w => simp [hchild]
    · intro w
      cases w with
      | nil => simp [newNodeArr, Trie.place]
      | cons c w => simp [hchild]

theorem Holding.off_iff (h : Holding root table) (seq : List Byte) :
    root.lookup seq = .off ↔ ¬ (seq = [] ∨ ∃ e ∈ table, seq <+: e.1) := by
  cases hplace : root.lookup seq with
  | off =>
    refine iff_of_true rfl ?_
    rintro (hnil | ⟨⟨s, v⟩, hmem, hpre⟩)
    · rw [(h.represents.inside seq).2 (Or.inl hnil)] at hplace
      cases hplace
    · exact h.represents.prefix_ne_off hmem hpre hplace
  | inside =>
    refine iff_of_false (by simp) fun hnot => hnot ?_
    rcases (h.represents.inside seq).1 hplace with hnil | ⟨u, v, hmem, -⟩
    · exact Or.inl hnil
    · exact Or.inr ⟨_, hmem, List.prefix_append _ _⟩
  | value x =>
    refine iff_of_false (by simp) fun hnot => hnot ?_
    exact Or.inr ⟨_, (h.represents.value seq x).1 hplace, List.prefix_rfl⟩

theorem insertSeq_addKey (h : Holding root table) (seq : List Byte) (leaf : TrieLeaf) :
    Option.Rel Holding (insertSeq root seq (.leaf leaf)) (addKey table seq leaf) := by
  have hne : root ≠ .null := by
    intro heq
    have hroot := h.place
    rw [heq] at hroot
    cases hroot
  have hvalues : (∃ u x, u <+: seq ∧ u ≠ seq ∧ root.lookup u = .value x) ↔ ∃ e ∈ table, e.1 <+: seq ∧ e.1 ≠ seq := by
    constructor
    · rintro ⟨u, x, hpre, hne, hvalue⟩
      exact ⟨(u, x), (h.represents.value u x).1 hvalue, hpre, hne⟩
    · rintro ⟨⟨u, x⟩, hmem, hpre, hne⟩
      exact ⟨u, x, hpre, hne, (h.represents.value u x).2 hmem⟩
  rcases insertSeq_cases h.full hne seq leaf with ⟨hnone, hvalue⟩ | ⟨root', hins, hfull, hplace, hfree, hoff, hon⟩
  · rw [hnone, addKey, if_pos (hvalues.1 hvalue)]
    exact Option.Rel.none
  · have hkeys : ¬ ∃ e ∈ table, e.1 <+: seq ∧ e.1 ≠ seq := by
      rw [← hvalues]
      rintro ⟨u, x, hpre, hne, hvalue⟩
      exact hfree u x hpre hne hvalue
    rw [hins, addKey, if_neg hkeys]
    have hiff := h.off_iff seq
    split_ifs with hthere
    · exact Option.Rel.some ⟨hfull, hplace.trans h.place, h.represents.congr (hon fun heq => hiff.1 heq hthere)⟩
    · have hseq := hiff.2 hthere
      refine Option.Rel.some ⟨hfull, hplace.trans h.place, h.represents.extended hseq (fun u x hpre => ?_) (hoff hseq)⟩
      by_cases heq : u = seq
      · rw [heq, hseq]
        simp
      · exact hfree u x hpre heq

end Table

section Compress
variable {kids : ℕ → TrieNode}

theorem findChild_some {i n m : ℕ} (h : findChild kids i n = some m) :
    i ≤ m ∧ m < i + n ∧ kids m ≠ .null ∧ ∀ j, i ≤ j → j < m → kids j = .null := by
  induction n generalizing i with
  | zero => cases h
  | succ n ih =>
    rw [findChild] at h
    split at h
    · rename_i hnull
      obtain ⟨hle, hlt, hm, hbelow⟩ := ih h
      refine ⟨by omega, by omega, hm, fun j hij hjm => ?_⟩
      rcases Nat.eq_or_lt_of_le hij with rfl | hij
      · exact hnull
      · exact hbelow j hij hjm
    · rename_i hkid
      cases h
      exact ⟨le_rfl, by omega, hkid, fun j hij hjm => absurd hij (not_le.2 hjm)⟩

theorem findChild_none {i n : ℕ} : findChild kids i n = none ↔ ∀ j, i ≤ j → j < i + n → kids j = .null := by
  induction n generalizing i with
  | zero => exact iff_of_true rfl fun j hij hj => absurd hij (by omega)
  | succ n ih =>
    rw [findChild]
    split
    · rename_i hnull
      rw [ih]
      constructor
      · intro hall j hij hj
        rcases Nat.eq_or_lt_of_le hij with rfl | hij
        · exact hnull
        · exact hall j hij (by omega)
      · exact fun hall j hij hj => hall j (by omega) (by omega)
    · rename_i hkid
      exact iff_of_false (Option.some_ne_none _) fun hall => hkid (hall i le_rfl (by omega))

theorem findLastChild_some {n m : ℕ} (h : findLastChild kids n = some m) :
    m < n ∧ ∀ j, m < j → j < n → kids j = .null := by
  induction n with
  | zero => cases h
  | succ n ih =>
    rw [findLastChild] at h
    split at h
    · rename_i hnull
      obtain ⟨hlt, habove⟩ := ih h
      refine ⟨by omega, fun j hmj hj => ?_⟩
      rcases Nat.eq_or_lt_of_le (Nat.le_of_lt_succ hj) with rfl | hj
      · exact hnull
      · exact habove j hmj hj
    · cases h
      exact ⟨Nat.lt_succ_self _, fun j hmj hj => absurd hmj (by omega)⟩

theorem findLastChild_none {n : ℕ} : findLastChild kids n = none ↔ ∀ j, j < n → kids j = .null := by
  induction n with
  | zero => exact iff_of_true rfl fun j hj => absurd hj (Nat.not_lt_zero j)
  | succ n ih =>
    rw [findLastChild]
    split
    · rename_i hnull
      rw [ih]
      constructor
      · intro hall j hj
        rcases Nat.eq_or_lt_of_le (Nat.le_of_lt_succ hj) with rfl | hj
        · exact hnull
        · exact hall j hj
      · exact fun hall j hj => hall j (by omega)
    · rename_i hkid
      exact iff_of_false (Option.some_ne_none _) fun hall => hkid (hall n (Nat.lt_succ_self n))

theorem compressTrie_lookup {t t' : TrieNode} (h : Full t) (hcompress : compressTrie t = some t') (w : List Byte) :
    t'.lookup w = t.lookup w := by
  induction t generalizing t' w with
  | null =>
    cases hcompress
    rfl
  | leaf leaf =>
    cases hcompress
    rfl
  | arr min max kids ih =>
    obtain ⟨rfl, rfl, hkids⟩ := h
    rw [compressTrie] at hcompress
    split at hcompress
    · rename_i lo hi hlo hhi
      split_ifs at hcompress with hall
      cases hcompress
      obtain ⟨-, hlo256, hkid, hbelow⟩ := findChild_some hlo
      obtain ⟨hhi256, habove⟩ := findLastChild_some hhi
      have hle : lo ≤ hi := not_lt.1 fun hlt => hkid (habove lo hlt (by omega))
      cases w with
      | nil => rfl
      | cons c w =>
        have hc := c.toNat_lt
        rw [Trie.lookup_cons, Trie.lookup_cons, child_full, Trie.child]
        have hindex : c.toNat - (UInt8.ofNat lo).toNat = c.toNat - lo := by
          rw [UInt8.toNat_ofNat']
          omega
        rw [hindex]
        split_ifs with hout hin
        · have hnull : kids c.toNat = .null := by
            rw [UInt8.lt_iff_toNat_lt, UInt8.lt_iff_toNat_lt, UInt8.toNat_ofNat', UInt8.toNat_ofNat'] at hout
            rcases hout with hout | hout
            · exact hbelow _ (Nat.zero_le _) (by omega)
            · exact habove _ (by omega) (by omega)
          rw [hnull]
        · rw [UInt8.lt_iff_toNat_lt, UInt8.lt_iff_toNat_lt, UInt8.toNat_ofNat', UInt8.toNat_ofNat'] at hout
          have hback : lo + (c.toNat - lo) = c.toNat := by omega
          rw [hback]
          obtain ⟨t', ht'⟩ := Option.isSome_iff_exists.1 (hall c.toNat (List.mem_range.2 (by omega)))
          rw [ht', Option.getD_some]
          exact ih c.toNat (hkids _) ht' w
        · rw [UInt8.lt_iff_toNat_lt, UInt8.lt_iff_toNat_lt, UInt8.toNat_ofNat', UInt8.toNat_ofNat'] at hout
          omega
    · cases hcompress

theorem compressTrie_none {t : TrieNode} (h : Full t) :
    compressTrie t = none ↔ ∃ w, t.lookup w = .inside ∧ ∀ b, t.lookup (w ++ [b]) = .off := by
  induction t with
  | null =>
    refine iff_of_false (Option.some_ne_none _) ?_
    rintro ⟨w, hw, -⟩
    simp at hw
  | leaf leaf =>
    refine iff_of_false (Option.some_ne_none _) ?_
    rintro ⟨w, hw, -⟩
    cases w with
    | nil => cases hw
    | cons b w => simp at hw
  | arr min max kids ih =>
    obtain ⟨rfl, rfl, hkids⟩ := h
    have hoff : ∀ {t : TrieNode}, t.place = .off → t = .null := by
      intro t ht
      cases t with
      | null => rfl
      | leaf leaf => cases ht
      | arr min max kids => cases ht
    rw [compressTrie]
    constructor
    · intro hnone
      split at hnone
      · split_ifs at hnone with hall
        simp only [not_forall, List.mem_range] at hall
        obtain ⟨i, hi, hsome⟩ := hall
        obtain ⟨w, hw, hoff⟩ := (ih i (hkids i)).1 (Option.not_isSome_iff_eq_none.1 hsome)
        have hbyte : (UInt8.ofNat i).toNat = i := by
          rw [UInt8.toNat_ofNat']
          omega
        refine ⟨UInt8.ofNat i :: w, ?_, fun b => ?_⟩
        · rw [Trie.lookup_cons, child_full, hbyte, hw]
        · rw [List.cons_append, Trie.lookup_cons, child_full, hbyte, hoff]
      · rename_i hends
        have hnull : ∀ j, j < 256 → kids j = .null := by
          cases hlo : findChild kids 0 256 with
          | none => exact fun j hj => findChild_none.1 hlo j (Nat.zero_le _) (by omega)
          | some lo =>
            cases hhi : findLastChild kids 256 with
            | none => exact findLastChild_none.1 hhi
            | some hi => exact absurd hhi (hends lo hi hlo)
        refine ⟨[], rfl, fun b => ?_⟩
        rw [List.nil_append, Trie.lookup_cons, child_full, hnull b.toNat b.toNat_lt, Trie.lookup_null]
    · rintro ⟨w, hw, hnext⟩
      split
      · rename_i lo hi hlo hhi
        rw [if_neg]
        intro hall
        cases w with
        | nil =>
          obtain ⟨-, hlt, hkid, -⟩ := findChild_some hlo
          have hlo' := hnext (UInt8.ofNat lo)
          rw [List.nil_append, Trie.lookup_cons, child_full, UInt8.toNat_ofNat', Nat.mod_eq_of_lt (by omega)] at hlo'
          exact hkid (hoff hlo')
        | cons c w =>
          rw [Trie.lookup_cons, child_full] at hw
          have hc : compressTrie (kids c.toNat) = none := (ih c.toNat (hkids _)).2 ⟨w, hw, fun b => by
            have hb := hnext b
            rwa [List.cons_append, Trie.lookup_cons, child_full] at hb⟩
          have hsome := hall c.toNat (List.mem_range.2 c.toNat_lt)
          rw [hc] at hsome
          cases hsome
      · rfl

end Compress

section Walk
variable {csi : TermKeyCsi} {force : Bool} {p : TrieNode} {pos : ℕ} {u w rest : List Byte}

/-- What a sequence in front of `rest` says, with `pos` bytes up to its end. -/
def leafReply (csi : TermKeyCsi) (leaf : TrieLeaf) (rest : List Byte) (pos : ℕ) : Reply :=
  match leaf with
  | .key info => .found (info.store 0) pos csi
  | .mouse => peekkeyMouse csi rest pos

theorem tiWalk_cons {b : Byte} (hp : p.place = .inside) :
    tiWalk csi force p pos (b :: w) =
      match p.child b with
      | .null => some (.undecided .none id csi)
      | .leaf leaf => some (leafReply csi leaf w (pos + 1))
      | next => tiWalk csi force next (pos + 1) w := by
  have hnext : lookupNext p b = some (p.child b) := by
    cases p with
    | null => cases hp
    | leaf leaf => cases hp
    | arr min max kids => rfl
  rw [tiWalk, hnext, Option.bind_eq_bind, Option.bind_some]
  cases p.child b with
  | null => rfl
  | leaf leaf => cases leaf <;> rfl
  | arr min max kids => rfl

theorem tiWalk_value {leaf : TrieLeaf} (hp : p.place = .inside) (h : p.lookup u = .value leaf) (pos : ℕ) :
    tiWalk csi force p pos (u ++ rest) = some (leafReply csi leaf rest (pos + u.length)) := by
  induction u generalizing p pos with
  | nil =>
    rw [Trie.lookup_nil, hp] at h
    cases h
  | cons b u ih =>
    rw [List.cons_append, tiWalk_cons hp]
    rw [Trie.lookup_cons] at h
    cases hchild : p.child b with
    | null =>
      rw [hchild, Trie.lookup_null] at h
      cases h
    | leaf leaf' =>
      rw [hchild] at h
      cases u with
      | nil =>
        cases h
        rfl
      | cons c u => simp at h
    | arr min max kids =>
      rw [hchild] at h
      have hstep := ih (p := .arr min max kids) rfl h (pos + 1)
      rw [List.length_cons, ← Nat.add_assoc, Nat.add_right_comm]
      exact hstep

theorem tiWalk_inside (hp : p.place = .inside) (h : p.lookup w = .inside) :
    tiWalk csi force p pos w = some (.undecided (if force then .none else .again) id csi) := by
  induction w generalizing p pos with
  | nil => rfl
  | cons b w ih =>
    rw [tiWalk_cons hp]
    rw [Trie.lookup_cons] at h
    cases hchild : p.child b with
    | null =>
      rw [hchild, Trie.lookup_null] at h
      cases h
    | leaf leaf =>
      rw [hchild] at h
      cases w with
      | nil => cases h
      | cons c w => simp at h
    | arr min max kids =>
      rw [hchild] at h
      exact ih rfl h

theorem tiWalk_off (hp : p.place = .inside) (hoff : p.lookup w = .off)
    (hfree : ∀ u leaf, u <+: w → p.lookup u ≠ .value leaf) :
    tiWalk csi force p pos w = some (.undecided .none id csi) := by
  induction w generalizing p pos with
  | nil =>
    rw [Trie.lookup_nil, hp] at hoff
    cases hoff
  | cons b w ih =>
    rw [tiWalk_cons hp]
    cases hchild : p.child b with
    | null => rfl
    | leaf leaf =>
      refine absurd ?_ (hfree [b] leaf ⟨w, rfl⟩)
      rw [Trie.lookup_cons, hchild]
      rfl
    | arr min max kids =>
      rw [Trie.lookup_cons, hchild] at hoff
      refine ih rfl hoff fun u leaf hpre => ?_
      have hu := hfree (b :: u) leaf (List.cons_prefix_cons.2 ⟨rfl, hpre⟩)
      rwa [Trie.lookup_cons, hchild] at hu

/-- What the flat list of sequences makes of the bytes: the sequence that they begin with, or a wait where
they are the beginning of one. -/
def tableReply (csi : TermKeyCsi) (force : Bool) (table : List (List Byte × TrieLeaf)) (w : List Byte) : Reply :=
  match table.find? fun e => e.1 <+: w with
  | some (seq, leaf) => leafReply csi leaf (w.drop seq.length) seq.length
  | none => .undecided (if (∃ e ∈ table, w <+: e.1) ∧ ¬ force then .again else .none) id csi

theorem tiPeekkey_table {root : TrieNode} {table : List (List Byte × TrieLeaf)} (s : Interpretation)
    (hroot : root.place = .inside) (h : Represents root table) (hw : w ≠ []) :
    tiPeekkey s csi root w force = some (tableReply csi force table w) := by
  have hpeek : tiPeekkey s csi root w force = tiWalk csi force root 0 w := by
    cases w with
    | nil => exact absurd rfl hw
    | cons b w => rfl
  rw [hpeek, tableReply]
  cases hfind : table.find? fun e => e.1 <+: w with
  | some e =>
    obtain ⟨seq, leaf⟩ := e
    obtain ⟨rest, rfl⟩ : seq <+: w := by simpa using List.find?_some hfind
    rw [tiWalk_value hroot ((h.value seq leaf).2 (List.mem_of_find?_eq_some hfind)), Nat.zero_add]
    simp only [List.drop_left]
  | none =>
    have hfree : ∀ u leaf, u <+: w → root.lookup u ≠ .value leaf := by
      intro u leaf hpre hvalue
      have hnot := List.find?_eq_none.1 hfind (u, leaf) ((h.value u leaf).1 hvalue)
      exact hnot (decide_eq_true hpre)
    cases hplace : root.lookup w with
    | off =>
      have hnone : ¬ ∃ e ∈ table, w <+: e.1 := by
        rintro ⟨⟨seq, leaf⟩, hmem, hpre⟩
        exact h.prefix_ne_off hmem hpre hplace
      rw [tiWalk_off hroot hplace hfree, if_neg fun hand => hnone hand.1]
    | inside =>
      obtain ⟨u, leaf, hmem, -⟩ := ((h.inside w).1 hplace).resolve_left hw
      have hsome : ∃ e ∈ table, w <+: e.1 := ⟨_, hmem, List.prefix_append _ _⟩
      rw [tiWalk_inside hroot hplace]
      cases force
      · rw [if_neg Bool.false_ne_true, if_pos ⟨hsome, Bool.false_ne_true⟩]
      · rw [if_pos rfl, if_neg fun hand => hand.2 rfl]
    | value leaf => exact absurd hplace (hfree w leaf List.prefix_rfl)

end Walk

section Load

def addString (table : List (List Byte × TrieLeaf)) :
    List Byte × Option (List Byte) → Option (List (List Byte × TrieLeaf))
  | (name, some value) =>
    if bytesOf "key_" <+: name then
      (keyNode (name.drop 4)).bind fun node => node.elim (some table) (addKey table value)
    else some table
  | (_, none) => some table

theorem loadString_addString {root : TrieNode} {table : List (List Byte × TrieLeaf)} (h : Holding root table)
    (str : List Byte × Option (List Byte)) :
    Option.Rel Holding (loadString root str) (addString table str) := by
  obtain ⟨name, value⟩ := str
  cases value with
  | none => exact Option.Rel.some h
  | some value =>
    rw [loadString, addString]
    split_ifs
    · cases keyNode (name.drop 4) with
      | none => exact Option.Rel.none
      | some node =>
        cases node with
        | none => exact Option.Rel.some h
        | some leaf => exact insertSeq_addKey h value leaf
    · exact Option.Rel.some h

theorem Holding.compress_none {root : TrieNode} {table : List (List Byte × TrieLeaf)} (h : Holding root table) :
    compressTrie root = none ↔ table = [] := by
  rw [compressTrie_none h.full]
  constructor
  · rintro ⟨w, hw, hnext⟩
    refine List.eq_nil_iff_forall_not_mem.2 ?_
    rcases (h.represents.inside w).1 hw with rfl | ⟨u, leaf, hmem, hu⟩
    · rintro ⟨seq, leaf⟩ hmem
      cases seq with
      | nil =>
        rw [(h.represents.value [] leaf).2 hmem] at hw
        cases hw
      | cons b seq => exact h.represents.prefix_ne_off hmem ⟨seq, rfl⟩ (hnext b)
    · obtain ⟨b, u, rfl⟩ := List.exists_cons_of_ne_nil hu
      exact absurd (hnext b) (h.represents.prefix_ne_off hmem ⟨u, by simp⟩)
  · rintro rfl
    refine ⟨[], h.place, fun b => ?_⟩
    cases hplace : root.lookup ([] ++ [b]) with
    | off => rfl
    | inside =>
      rcases (h.represents.inside _).1 hplace with hnil | ⟨u, leaf, hmem, -⟩
      · cases hnil
      · cases hmem
    | value leaf => exact absurd ((h.represents.value _ _).1 hplace) List.not_mem_nil

theorem loadTerminfo_of_table {strings : List (List Byte × Option (List Byte))} {e : List Byte × TrieLeaf}
    {table : List (List Byte × TrieLeaf)} (htable : run addString [] strings = some (e :: table)) :
    ∃ root, loadTerminfo strings = some root ∧ ∀ s csi w force, w ≠ [] →
      tiPeekkey s csi root w force = some (tableReply csi force (e :: table) w) := by
  have hrel := rel_run (fun root table str h => loadString_addString h str) holding_new strings
  rw [htable] at hrel
  cases hload : run loadString (newNodeArr 0 0xff) strings with
  | none =>
    rw [hload] at hrel
    cases hrel
  | some root =>
    rw [hload] at hrel
    cases hrel with
    | some h =>
      cases hcompress : compressTrie root with
      | none => exact absurd (h.compress_none.1 hcompress) (List.cons_ne_nil _ _)
      | some root' =>
        refine ⟨root', by rw [loadTerminfo, hload, Option.bind_some, hcompress], fun s csi w force hw => ?_⟩
        have hlookup := compressTrie_lookup h.full hcompress
        exact tiPeekkey_table s ((hlookup []).trans h.place) (h.represents.congr hlookup) hw

/-- `load_terminfo` comes to an end where some sequence of a key is in the database and none goes on behind
another; the driver then finds what a search through the flat list of the sequences does. -/
theorem loadTerminfo_table (strings : List (List Byte × Option (List Byte))) :
    match run addString [] strings with
    | none => loadTerminfo strings = none
    | some [] => loadTerminfo strings = none
    | some table => ∃ root, loadTerminfo strings = some root ∧ ∀ s csi w force, w ≠ [] →
        tiPeekkey s csi root w force = some (tableReply csi force table w) := by
  have hrel := rel_run (fun root table str h => loadString_addString h str) holding_new strings
  cases htable : run addString [] strings with
  | none =>
    cases hload : run loadString (newNodeArr 0 0xff) strings with
    | none =>
      simp only [loadTerminfo, hload]
      rfl
    | some root =>
      rw [htable, hload] at hrel
      cases hrel
  | some table =>
    cases table with
    | cons e table => exact loadTerminfo_of_table htable
    | nil =>
      rw [htable] at hrel
      cases hload : run loadString (newNodeArr 0 0xff) strings with
      | none =>
        rw [hload] at hrel
        cases hrel
      | some root =>
        rw [hload] at hrel
        cases hrel with
        | some h =>
          simp only [loadTerminfo, hload, Option.bind_some]
          exact h.compress_none.2 rfl

end Load

end MutantC.Libtermkey
