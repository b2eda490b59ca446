import MutantC.StringClass.StringContent

/-! What `string_class_print` writes. A node is printed up to the first NUL of its block, so the byte
after its last one has to be NUL; the condition below says when every call of a run leaves it so. -/

namespace MutantC.StringClass
open CBuffer Iteration SkipList Librope

/-- No piece the string is cut into fills a node to its last byte. -/
def NoFullPiece (cs : List Utf8Char) : Prop := ∀ p ∈ pieces cs, (utf8Bytes p).length ≠ ropeNodeStrSize

instance : DecidablePred NoFullPiece := fun cs =>
  inferInstanceAs (Decidable (∀ p ∈ pieces cs, (utf8Bytes p).length ≠ ropeNodeStrSize))

def nodeChars (n : RopeNode) : ℕ := strlenUtf8 (n.str.take n.numBytes)

def RoomLeft (n : RopeNode) (cs : List Utf8Char) : Prop :=
  n.numBytes + (utf8Bytes cs).length < ropeNodeStrSize

def TooLong (n : RopeNode) (cs : List Utf8Char) : Prop :=
  ropeNodeStrSize < n.numBytes + (utf8Bytes cs).length

/-- The node that holds the position keeps a byte free; or the string, too long for it, goes to its
end, and then the next node keeps a byte free or is too short too, and no new node gets full. -/
def InsertSafe (cs : List Utf8Char) : List RopeNode → ℕ → Prop
  | [], _ => True
  | n :: ns, pos =>
    if pos ≤ nodeChars n then
      RoomLeft n cs ∨ TooLong n cs ∧ pos = nodeChars n ∧
        ((∃ nx ∈ ns.head?, RoomLeft nx cs) ∨ (∀ nx ∈ ns.head?, TooLong nx cs) ∧ NoFullPiece cs)
    else InsertSafe cs ns (pos - nodeChars n)

/-- `set` leaves the bytes of the first node in place, so the new string has to cover them. -/
def SetSafe (cs : List Utf8Char) (head : RopeNode) : Prop :=
  if (utf8Bytes cs).length ≤ ropeNodeStrSize then
    head.numBytes ≤ (utf8Bytes cs).length ∧ (utf8Bytes cs).length < ropeNodeStrSize
  else head.numBytes = 0 ∧ NoFullPiece cs

/-- The condition on a call, in terms of the nodes of the rope before it. -/
def CallSafe (r : Rope) (c : Call) : Prop :=
  ∀ nodes, ropeForeach r = some nodes →
    match c with
    | .set s =>
      match decodeUtf8 s.bytes with
      | some cs => ∀ head ∈ nodes.head?, SetSafe cs head
      | none => ∀ head ∈ nodes.head?, head.numBytes = 0
    | .insertCstrAt pos s => ∀ cs ∈ decodeUtf8 s.bytes, InsertSafe cs nodes (min pos r.numChars)
    | .appendCstr s => ∀ cs ∈ decodeUtf8 s.bytes, InsertSafe cs nodes r.numChars

def PrintsContent (r : Rope) : Prop :=
  ∃ out, stringClassPrint r = some out ∧ ropeContent r = some out

def Clean (l : Leaf) : Prop := l.slack.head? = some 0

def Zeroed (l : Leaf) : Prop := ∀ x ∈ l.slack, x = 0

theorem cstr_append_of_nonzero {txt : List Byte} (h : 0 ∉ txt) (rest : List Byte) :
    cstr (txt ++ rest) = (cstr rest).map (txt ++ ·) := by
  induction txt with
  | nil => simp
  | cons b txt ih =>
    obtain ⟨hb, htxt⟩ := not_or.1 (mt List.mem_cons.2 h)
    rw [List.cons_append, cstr, if_neg (Ne.symm hb), ih htxt, Option.map_map]
    rfl

theorem cstr_concat_zero (blk : List Byte) : ∃ out, cstr (blk ++ [0]) = some out := by
  induction blk with
  | nil => exact ⟨[], rfl⟩
  | cons b blk ih =>
    obtain ⟨out, hout⟩ := ih
    rw [List.cons_append, cstr]
    split_ifs
    · exact ⟨[], rfl⟩
    · exact ⟨b :: out, by rw [hout]; rfl⟩

theorem printNode_eq {l : Leaf} (hsize : l.bytes.length + l.slack.length = ropeNodeStrSize) :
    ∃ extra, printNode l.node = some (l.bytes ++ extra) ∧ (extra = [] ↔ Clean l) := by
  have hle : l.bytes.length ≤ 136 := by
    rw [show (136 : ℕ) = ropeNodeStrSize from rfl]
    omega
  have hhigh : UInt8.ofNat (l.bytes.length / 256) = 0 := by
    rw [Nat.div_eq_of_lt (by omega)]
    rfl
  have hnonzero : 0 ∉ l.bytes := zero_notMem_utf8Bytes l.chars
  obtain ⟨extra, hextra⟩ := cstr_concat_zero (l.slack ++ [UInt8.ofNat (l.bytes.length % 256)])
  refine ⟨extra, ?_, ?_⟩
  · rw [printNode, ropeNodeData, Leaf.node, hhigh, List.append_assoc,
      cstr_append_of_nonzero hnonzero]
    simp only [List.append_assoc, List.cons_append, List.nil_append] at hextra ⊢
    rw [hextra]
    rfl
  · unfold Clean
    cases hslack : l.slack with
    | nil =>
      have hfull : l.bytes.length = 136 := by
        rw [hslack, List.length_nil, Nat.add_zero] at hsize
        exact hsize
      rw [hslack, hfull] at hextra
      obtain rfl : [136] = extra := Option.some.inj hextra
      simp
    | cons x slack =>
      rw [hslack, List.cons_append, List.cons_append, cstr] at hextra
      split_ifs at hextra with hx
      · obtain rfl := Option.some.inj hextra
        simp [hx]
      · obtain ⟨rest, -, rfl⟩ := Option.map_eq_some_iff.1 hextra
        simp [hx]

theorem printsContent_iff {r : Rope} {H : ℕ} {ls : List Leaf} (hr : Layout r H ls) :
    PrintsContent r ↔ ∀ l ∈ ls, Clean l := by
  have hout : ∀ ms : List Leaf, (∀ l ∈ ms, l.bytes.length + l.slack.length = ropeNodeStrSize) →
      ∃ out, (ms.map Leaf.node).mapM printNode = some out ∧
        (utf8Bytes (text ms)).length ≤ out.flatten.length ∧
        (out.flatten = utf8Bytes (text ms) ↔ ∀ l ∈ ms, Clean l) := by
    intro ms hms
    induction ms with
    | nil => exact ⟨[], rfl, le_rfl, by simp⟩
    | cons l ms ih =>
      obtain ⟨out, hrest, hle, hiff⟩ := ih fun m hm => hms m (List.mem_cons_of_mem l hm)
      obtain ⟨extra, hl, hclean⟩ := printNode_eq (hms l List.mem_cons_self)
      refine ⟨(l.bytes ++ extra) :: out, ?_, ?_, ?_⟩
      · rw [List.map_cons, List.mapM_cons, hl, hrest]
        rfl
      · simp only [text_cons, utf8Bytes_append, List.flatten_cons, List.length_append, Leaf.bytes]
        omega
      · rw [List.forall_mem_cons, ← hclean, ← hiff, text_cons, utf8Bytes_append, List.flatten_cons,
          List.append_assoc]
        constructor
        · intro h
          have h' : extra ++ out.flatten = utf8Bytes (text ms) := List.append_cancel_left h
          have hlen := congrArg List.length h'
          rw [List.length_append] at hlen
          obtain rfl : extra = [] := List.eq_nil_of_length_eq_zero (by omega)
          exact ⟨rfl, h'⟩
        · rintro ⟨rfl, h⟩
          rw [h]
          rfl
  obtain ⟨out, hprint, -, hiff⟩ := hout ls hr.size
  have hshown : stringClassPrint r = some out.flatten := by
    rw [stringClassPrint, ropeForeach_eq hr]
    simp only [Option.bind_eq_bind, Option.bind_some, hprint]
  rw [← hiff, PrintsContent, hshown, ropeContent_eq hr]
  constructor
  · rintro ⟨w, hw, hw'⟩
    exact Option.some.inj (hw.trans hw'.symm)
  · intro h
    exact ⟨_, rfl, by rw [h]⟩

theorem Zeroed.clean_iff {l : Leaf} (h : Zeroed l) : Clean l ↔ l.slack ≠ [] := by
  unfold Clean
  unfold Zeroed at h
  cases hslack : l.slack with
  | nil => simp
  | cons x slack => simp [h x (by rw [hslack]; exact List.mem_cons_self)]

theorem head?_utf8Bytes_append {cs : List Utf8Char} (h : cs ≠ []) (rest : List Byte) :
    (utf8Bytes cs ++ rest).head? ≠ some 0 := by
  intro hhead
  have hne : utf8Bytes cs ≠ [] := fun e => h (utf8Bytes_eq_nil.1 e)
  rw [List.head?_append_of_ne_nil _ hne] at hhead
  exact zero_notMem_utf8Bytes cs (List.mem_of_mem_head? hhead)

/-- The condition at the leaf that holds the position. -/
def SafeAt (e : Leaf) (post : List Leaf) (b cs : List Utf8Char) : Prop :=
  RoomLeft e.node cs ∨ TooLong e.node cs ∧ b = [] ∧
    ((∃ nx ∈ post.head?, RoomLeft nx.node cs) ∨ (∀ nx ∈ post.head?, TooLong nx.node cs) ∧ NoFullPiece cs)

theorem nodeChars_node (l : Leaf) : nodeChars l.node = l.chars.length := by
  rw [nodeChars, Leaf.node, List.take_left, Leaf.bytes, strlenUtf8_utf8Bytes]

theorem insertSafe_iff {ls pre post : List Leaf} {pos : ℕ} {e : Leaf} {a b : List Utf8Char}
    (hat : At ls pos pre e post a b) (cs : List Utf8Char) :
    InsertSafe cs (ls.map Leaf.node) pos ↔ SafeAt e post b cs := by
  obtain ⟨rfl, hchars, rfl, hleft⟩ := hat
  induction pre with
  | nil =>
    have hle : a.length ≤ e.chars.length := by
      rw [hchars, List.length_append]
      omega
    have hend : a.length = e.chars.length ↔ b = [] := by
      rw [hchars, List.length_append, ← List.length_eq_zero_iff]
      omega
    rw [List.nil_append, List.map_cons, InsertSafe, nodeChars_node, text_nil, List.nil_append, if_pos hle,
      hend, List.head?_map, SafeAt]
    simp
  | cons x pre ih =>
    have ha : 0 < a.length := List.length_pos_of_ne_nil (hleft.resolve_right (by simp))
    have hright : ¬ (text (x :: pre) ++ a).length ≤ x.chars.length := by
      simp only [text_cons, List.length_append]
      omega
    have hsub : (text (x :: pre) ++ a).length - x.chars.length = (text pre ++ a).length := by
      simp only [text_cons, List.length_append]
      omega
    rw [List.cons_append, List.map_cons, InsertSafe, nodeChars_node, if_neg hright, hsub]
    exact ih (.inl (List.ne_nil_of_length_pos ha))

section
variable {rand : ℕ → ℕ}

theorem zeroed_of_made {l : Leaf} (h : Made (gcEnv rand) l) : Zeroed l := by
  intro x hx
  rw [h.2] at hx
  exact List.eq_of_mem_replicate (List.mem_of_mem_drop hx)

theorem clean_news_iff {cs b : List Utf8Char} {news tail : List Leaf}
    (h : SplitNodes (gcEnv rand) cs b news tail) : (∀ l ∈ news, Clean l) ↔ NoFullPiece cs := by
  have hone : ∀ l ∈ news, Clean l ↔ l.bytes.length ≠ ropeNodeStrSize := by
    intro l hl
    have hmade := h.made l (List.mem_append_left tail hl)
    have hpiece : l.chars ∈ pieces cs := h.news_chars ▸ List.mem_map_of_mem hl
    have hle : l.bytes.length ≤ ropeNodeStrSize := length_le_of_mem_pieces hpiece
    rw [(zeroed_of_made hmade).clean_iff, hmade.2, ne_eq, List.drop_eq_nil_iff]
    simp only [gcEnv, List.length_replicate]
    omega
  unfold NoFullPiece
  rw [← h.news_chars, List.forall_mem_map]
  exact forall₂_congr hone

variable {pre post ls' : List Leaf} {e : Leaf} {a b cs : List Utf8Char}

theorem mem_raise {H : ℕ} {ls : List Leaf} {l : Leaf} (h : l ∈ raise H ls) :
    ∃ m ∈ ls, m.slack = l.slack := by
  cases ls with
  | nil => cases h
  | cons m ls =>
    rcases List.mem_cons.1 h with rfl | h
    · exact ⟨m, List.mem_cons_self, rfl⟩
    · exact ⟨l, List.mem_cons_of_mem m h, rfl⟩

theorem exists_mem_raise (H : ℕ) {ls : List Leaf} {m : Leaf} (h : m ∈ ls) :
    ∃ l ∈ raise H ls, l.slack = m.slack := by
  cases ls with
  | nil => cases h
  | cons x ls =>
    rcases List.mem_cons.1 h with rfl | h
    · exact ⟨_, List.mem_cons_self, rfl⟩
    · exact ⟨m, List.mem_cons_of_mem _ h, rfl⟩

theorem forall_raise {P : List Byte → Prop} (H : ℕ) (ls : List Leaf) :
    (∀ l ∈ raise H ls, P l.slack) ↔ ∀ l ∈ ls, P l.slack := by
  constructor
  · intro h m hm
    obtain ⟨l, hl, hs⟩ := exists_mem_raise H hm
    exact hs ▸ h l hl
  · intro h l hl
    obtain ⟨m, hm, hs⟩ := mem_raise hl
    exact hs ▸ h m hm

theorem tooLong_iff {l : Leaf} : TooLong l.node cs ↔ ¬ Fits l cs :=
  Nat.not_le.symm

theorem not_roomLeft {l : Leaf} (hfull : ¬ Fits l cs) : ¬ RoomLeft l.node cs :=
  fun h => hfull (Nat.le_of_lt h)

theorem clean_grown_iff {l m : Leaf} (cs : List Utf8Char)
    (hsize : l.bytes.length + l.slack.length = ropeNodeStrSize)
    (hzero : Zeroed l) (hslack : m.slack = l.slack.drop (utf8Bytes cs).length) :
    Zeroed m ∧ (Clean m ↔ RoomLeft l.node cs) := by
  have hz : Zeroed m := fun x hx => hzero x (List.mem_of_mem_drop (hslack ▸ hx))
  refine ⟨hz, ?_⟩
  have hroom : RoomLeft l.node cs ↔ l.bytes.length + (utf8Bytes cs).length < ropeNodeStrSize := Iff.rfl
  rw [hz.clean_iff, hslack, ne_eq, List.drop_eq_nil_iff, hroom]
  omega

theorem clean_inserted_iff (hins : Inserted (gcEnv rand) pre e post a b cs ls')
    (hsize : ∀ l ∈ pre ++ e :: post, l.bytes.length + l.slack.length = ropeNodeStrSize)
    (hzero : ∀ l ∈ pre ++ e :: post, Zeroed l) (hclean : ∀ l ∈ pre ++ e :: post, Clean l) :
    ((∀ l ∈ ls', Clean l) ↔ SafeAt e post b cs) ∧ ((∀ l ∈ ls', Clean l) → ∀ l ∈ ls', Zeroed l) := by
  simp only [List.forall_mem_append, List.forall_mem_cons] at hsize hzero hclean
  unfold SafeAt
  cases hins with
  | here hfit =>
    obtain ⟨hz, hc⟩ := clean_grown_iff (m := { e with
      chars := a ++ cs ++ b, slack := e.slack.drop (utf8Bytes cs).length }) cs hsize.2.1 hzero.2.1 rfl
    have hlong := mt tooLong_iff.1 (not_not.2 hfit)
    simp only [List.forall_mem_append, List.forall_mem_cons, hc, hlong, false_and, or_false]
    exact ⟨⟨fun h => h.2.1, fun h => ⟨hclean.1, h, hclean.2.2⟩⟩, fun _ => ⟨hzero.1, hz, hzero.2.2⟩⟩
  | @next nx rest hfull hb hpost hfit =>
    subst hb hpost
    simp only [List.forall_mem_cons] at hsize hzero hclean
    obtain ⟨hz, hc⟩ := clean_grown_iff (m := { nx with
      chars := cs ++ nx.chars, slack := nx.slack.drop (utf8Bytes cs).length }) cs hsize.2.2.1 hzero.2.2.1 rfl
    have hlong := mt tooLong_iff.1 (not_not.2 hfit)
    simp only [List.forall_mem_append, List.forall_mem_cons, hc, not_roomLeft hfull,
      tooLong_iff.2 hfull, true_and, false_or, List.head?_cons, Option.mem_some_iff, exists_eq_left',
      forall_eq', hlong, false_and, or_false]
    exact ⟨⟨fun h => h.2.2.1, fun h => ⟨hclean.1, hclean.2.1, h, hclean.2.2.2⟩⟩,
      fun _ => ⟨hzero.1, hzero.2.1, hz, hzero.2.2.2⟩⟩
  | @split H' news tail hfull hnext hnodes =>
    have hraised : ∀ P : List Byte → Prop,
        (∀ l ∈ raise H' (pre ++ [{ e with chars := a, slack := utf8Bytes b ++ e.slack }]), P l.slack) ↔
          (∀ l ∈ pre, P l.slack) ∧ P (utf8Bytes b ++ e.slack) := by
      intro P
      rw [forall_raise, List.forall_mem_append, List.forall_mem_singleton]
    have hcleaned := hraised fun slack => slack.head? = some 0
    have hzeroed := hraised fun slack => ∀ x ∈ slack, x = 0
    have hnews := clean_news_iff hnodes
    have hmade : ∀ l ∈ news ++ tail, Zeroed l := fun l hl => zeroed_of_made (hnodes.made l hl)
    by_cases hb : b = []
    · subst hb
      have htail : tail = [] := List.map_eq_nil_iff.1 (hnodes.tail_chars.trans (if_pos rfl))
      subst htail
      have hlong : ∀ nx ∈ post.head?, TooLong nx.node cs := fun nx hnx =>
        tooLong_iff.2 (hnext rfl nx hnx)
      have hroom : ¬ ∃ nx ∈ post.head?, RoomLeft nx.node cs := by
        rintro ⟨nx, hnx, h⟩
        exact not_roomLeft (hnext rfl nx hnx) h
      rw [List.forall_mem_append] at hmade
      simp only [not_roomLeft hfull, tooLong_iff.2 hfull, true_and, false_or, hroom, ← hnews,
        List.append_nil, List.forall_mem_append]
      refine ⟨⟨fun h => ⟨hlong, h.1.2⟩, fun h => ⟨⟨?_, h.2⟩, hclean.2.2⟩⟩,
        fun _ => ⟨⟨?_, hmade.1⟩, hzero.2.2⟩⟩
      · exact hcleaned.2 ⟨hclean.1, hclean.2.1⟩
      · exact hzeroed.2 ⟨hzero.1, hzero.2.1⟩
    -- the bytes cut off stay behind the text of the node, so it is not clean
    · have hdirty : ¬ ∀ l ∈ raise H' (pre ++ [{ e with chars := a, slack := utf8Bytes b ++ e.slack }]) ++
          news ++ tail ++ post, Clean l := by
        intro h
        simp only [List.forall_mem_append] at h
        exact head?_utf8Bytes_append hb e.slack (hcleaned.1 h.1.1.1).2
      refine ⟨⟨fun h => absurd h hdirty, ?_⟩, fun h => absurd h hdirty⟩
      rintro (h | ⟨-, h, -⟩)
      · exact absurd h (not_roomLeft hfull)
      · exact absurd h hb

def ZeroPadded (r : Rope) : Prop := ∃ H ls, Repr r H ls ∧ ∀ l ∈ ls, Zeroed l

def Settles (next : Option Rope) (safe : Prop) : Prop :=
  ∃ r', next = some r' ∧ (PrintsContent r' ↔ safe) ∧ (PrintsContent r' → ZeroPadded r')

variable {r : Rope} {H : ℕ} {ls : List Leaf}

variable (rand) in
theorem insert_settles (hr : Repr r H ls) (hzero : ∀ l ∈ ls, Zeroed l) (hclean : ∀ l ∈ ls, Clean l)
    (pos : ℕ) (s : CString) :
    Settles ((ropeInsert (gcEnv rand) r pos s.bytes).map Prod.snd)
      (∀ cs ∈ decodeUtf8 s.bytes, InsertSafe cs (ls.map Leaf.node) (min pos r.numChars)) := by
  by_cases hs : s.Valid
  · obtain ⟨cs, hcs⟩ := exists_chars_of_check hs
    obtain ⟨pre, e, post, a, b, r', H', ls', hat, hrun, hins, hr'⟩ :=
      ropeInsert_spec (gcEnv rand) hr pos cs
    have hleaves := hat.leaves
    obtain ⟨hiff, hpad⟩ := clean_inserted_iff hins (hleaves ▸ hr.size) (hleaves ▸ hzero) (hleaves ▸ hclean)
    refine ⟨r', by rw [hcs, hrun]; rfl, ?_, fun h => ⟨H', ls', hr', hpad ((printsContent_iff hr'.toLayout).1 h)⟩⟩
    rw [printsContent_iff hr'.toLayout, hiff, hcs, decodeUtf8_utf8Bytes, hr.numChars,
      ← insertSafe_iff hat cs]
    simp
  · have hbad : bytelenAndCheckUtf8 s.bytes = none := not_not.1 hs
    refine ⟨r, by rw [ropeInsert_invalid _ hr pos hbad]; rfl, ?_, fun _ => ⟨H, ls, hr, hzero⟩⟩
    rw [printsContent_iff hr.toLayout, decodeUtf8_of_invalid hbad]
    simpa using hclean

theorem head?_drop_bytes {l : Leaf} (hsize : l.bytes.length + l.slack.length = ropeNodeStrSize)
    (hzero : Zeroed l) (n : ℕ) :
    ((l.bytes ++ l.slack).drop n).head? = some 0 ↔ l.bytes.length ≤ n ∧ n < ropeNodeStrSize := by
  by_cases hn : l.bytes.length ≤ n
  · have hz : Zeroed { l with slack := l.slack.drop (n - l.bytes.length) } := fun x hx =>
      hzero x (List.mem_of_mem_drop hx)
    have hc := hz.clean_iff
    unfold Clean at hc
    rw [List.drop_append, List.drop_eq_nil_of_le hn, List.nil_append, hc, ne_eq, List.drop_eq_nil_iff]
    omega
  · have hne : l.bytes.drop n ≠ [] := by
      rw [ne_eq, List.drop_eq_nil_iff]
      exact hn
    rw [List.drop_append_of_le_length (Nat.le_of_not_le hn), List.head?_append_of_ne_nil _ hne]
    refine ⟨fun h => absurd (List.mem_of_mem_drop (List.mem_of_mem_head? h)) ?_, fun h => absurd h.1 hn⟩
    exact zero_notMem_utf8Bytes l.chars

theorem zeroed_of_head {l : Leaf} (hzero : Zeroed l) {n : ℕ} (hn : l.bytes.length ≤ n) :
    ∀ x ∈ (l.bytes ++ l.slack).drop n, x = 0 := by
  intro x hx
  rw [List.drop_append, List.drop_eq_nil_of_le hn, List.nil_append] at hx
  exact hzero x (List.mem_of_mem_drop hx)

theorem head?_kept_bytes {l : Leaf} (hsize : l.bytes.length + l.slack.length = ropeNodeStrSize)
    (hzero : Zeroed l) (hclean : Clean l) :
    (l.bytes ++ l.slack).head? = some 0 ↔ l.node.numBytes = 0 := by
  have hroom := List.length_pos_of_ne_nil (hzero.clean_iff.1 hclean)
  have hdrop := head?_drop_bytes hsize hzero 0
  rw [List.drop_zero] at hdrop
  rw [hdrop]
  show _ ↔ l.bytes.length = 0
  omega

/-- After `set` on a clean rope: the head, its old bytes still in its block, and the new nodes. -/
theorem clean_set_iff {h : Leaf} (hsize : h.bytes.length + h.slack.length = ropeNodeStrSize)
    (hzero : Zeroed h) (hclean : Clean h)
    (hins : Inserted (gcEnv rand) [] { h with chars := [], slack := h.bytes ++ h.slack } [] [] [] cs ls') :
    ((∀ l ∈ ls', Clean l) ↔ SetSafe cs h.node) ∧ ((∀ l ∈ ls', Clean l) → ∀ l ∈ ls', Zeroed l) := by
  have hfits : Fits { h with chars := [], slack := h.bytes ++ h.slack } cs ↔
      (utf8Bytes cs).length ≤ ropeNodeStrSize := by
    simp [Fits, Leaf.bytes]
  have hempty := head?_kept_bytes hsize hzero hclean
  unfold SetSafe
  cases hins with
  | here hfit =>
    have hiff := head?_drop_bytes hsize hzero (utf8Bytes cs).length
    rw [if_pos (hfits.1 hfit), List.nil_append, List.forall_mem_singleton, List.forall_mem_singleton]
    exact ⟨hiff, fun hc => zeroed_of_head hzero (hiff.1 hc).1⟩
  | next hfull hb hpost hfit => cases hpost
  | @split H' news tail hfull hnext hnodes =>
    have htail : tail = [] := List.map_eq_nil_iff.1 (hnodes.tail_chars.trans (if_pos rfl))
    subst htail
    have hraised : ∀ P : List Byte → Prop, (∀ l ∈ raise H'
        [{ h with chars := [], slack := h.bytes ++ h.slack }], P l.slack) ↔ P (h.bytes ++ h.slack) :=
      fun P => (forall_raise H' _).trans List.forall_mem_singleton
    have hcleaned := hraised fun slack => slack.head? = some 0
    have hzeroed := hraised fun slack => ∀ x ∈ slack, x = 0
    rw [if_neg (mt hfits.2 hfull), ← clean_news_iff hnodes, ← hempty, ← hcleaned]
    simp only [List.nil_append, List.append_nil, List.forall_mem_append, utf8Bytes_nil]
    refine ⟨Iff.rfl, fun hc => ⟨hzeroed.2 ?_, fun l hl => ?_⟩⟩
    · have hnone : h.bytes.length = 0 := hempty.1 (hcleaned.1 hc.1)
      exact zeroed_of_head (n := 0) hzero (Nat.le_of_eq hnone)
    · exact zeroed_of_made (hnodes.made l (List.mem_append_left _ hl))

variable (rand) in
theorem set_settles {h : Leaf} {t : List Leaf} (hr : Repr r H (h :: t)) (hzero : Zeroed h) (hclean : Clean h)
    (s : CString) :
    Settles (stringClassSet (gcEnv rand) r s)
      (match decodeUtf8 s.bytes with
      | some cs => SetSafe cs h.node
      | none => h.node.numBytes = 0) := by
  have hsize := hr.size h List.mem_cons_self
  obtain ⟨r₁, hdel, hr₁⟩ := ropeDel_all hr
  set h₁ : Leaf := { h with chars := [], slack := h.bytes ++ h.slack } with hh₁
  rw [stringClassSet, Option.bind_eq_bind, hdel, Option.bind_some]
  by_cases hs : s.Valid
  · obtain ⟨cs, hcs⟩ := exists_chars_of_check hs
    obtain ⟨pre, e, post, a, b, r', H', ls', ⟨hleaves, hchars, -, -⟩, hrun, hins, hr'⟩ :=
      ropeInsert_spec (gcEnv rand) hr₁ 0 cs
    have hnil : pre = [] ∧ e = h₁ ∧ post = [] := by
      rcases List.append_eq_singleton_iff.1 hleaves.symm with ⟨hpre, hcons⟩ | ⟨-, hcons⟩
      · obtain ⟨he, hpost⟩ := List.cons.inj hcons
        exact ⟨hpre, he, hpost⟩
      · cases hcons
    obtain ⟨rfl, rfl, rfl⟩ := hnil
    obtain ⟨rfl, rfl⟩ := List.append_eq_nil_iff.1 (hchars.symm : a ++ b = [])
    obtain ⟨hiff, hpad⟩ := clean_set_iff hsize hzero hclean hins
    refine ⟨r', by rw [hcs, hrun]; rfl, ?_, fun hp => ⟨H', ls', hr', hpad ((printsContent_iff hr'.toLayout).1 hp)⟩⟩
    rw [printsContent_iff hr'.toLayout, hiff, hcs, decodeUtf8_utf8Bytes]
  · have hbad : bytelenAndCheckUtf8 s.bytes = none := not_not.1 hs
    have hempty := head?_kept_bytes hsize hzero hclean
    refine ⟨r₁, by rw [ropeInsert_invalid _ hr₁ 0 hbad]; rfl, ?_, fun hp => ⟨H, _, hr₁, ?_⟩⟩
    · rw [printsContent_iff hr₁.toLayout, decodeUtf8_of_invalid hbad, List.forall_mem_singleton]
      exact hempty
    · rw [printsContent_iff hr₁.toLayout, List.forall_mem_singleton] at hp
      have hnone : h.bytes.length = 0 := hempty.1 hp
      exact List.forall_mem_singleton.2 (zeroed_of_head (n := 0) hzero (Nat.le_of_eq hnone))

variable (rand) in
theorem call_settles (hpad : ZeroPadded r) (hprint : PrintsContent r) (c : Call) :
    Settles (call (gcEnv rand) r c) (CallSafe r c) := by
  obtain ⟨H, ls, hr, hzero⟩ := hpad
  have hclean := (printsContent_iff hr.toLayout).1 hprint
  obtain ⟨h, t, rfl, -⟩ := hr.rooted
  have hmem : h ∈ h :: t := List.mem_cons_self
  have hnodes : ∀ P : List RopeNode → Prop,
      (∀ nodes, ropeForeach r = some nodes → P nodes) ↔ P ((h :: t).map Leaf.node) := by
    intro P
    rw [ropeForeach_eq hr.toLayout]
    simp
  unfold CallSafe
  rw [hnodes]
  cases c with
  | set s =>
    have hset := set_settles rand hr (hzero h hmem) (hclean h hmem) s
    simp only [call, List.map_cons, List.head?_cons, Option.mem_some_iff, forall_eq']
    exact hset
  | insertCstrAt pos s => exact insert_settles rand hr hzero hclean pos s
  | appendCstr s =>
    have happend := insert_settles rand hr hzero hclean r.numChars s
    rw [Nat.min_self] at happend
    exact happend

/-- Along a run every state prints its content exactly when every call of the run is safe. -/
theorem prints_content_iff (rand : ℕ → ℕ) (calls : List Call) :
    Along (call (gcEnv rand)) PrintsContent (ropeNew2 (gcEnv rand)) calls ↔
      Meets (call (gcEnv rand)) CallSafe (ropeNew2 (gcEnv rand)) calls := by
  have hnew := ropeNew2_spec (gcEnv rand)
  have hzero : Zeroed (newHead (gcEnv rand)) := fun x hx => List.eq_of_mem_replicate hx
  refine along_iff_meets (I := ZeroPadded) ?_ ?_ ⟨1, _, hnew, List.forall_mem_singleton.2 hzero⟩ ?_ calls
  · intro r c hpad hprint
    obtain ⟨r', hcall, hiff, -⟩ := call_settles rand hpad hprint c
    rw [← hiff, hcall]
    simp
  · intro r c r' hpad hprint hcall hprint'
    obtain ⟨r₁, hcall₁, -, hkeep⟩ := call_settles rand hpad hprint c
    obtain rfl := Option.some.inj (hcall.symm.trans hcall₁)
    exact hkeep hprint'
  · rw [printsContent_iff hnew.toLayout, List.forall_mem_singleton, hzero.clean_iff]
    simp [newHead, gcEnv, ropeNodeStrSize]

end

/-- `set("TEST 1\n")`, then `set("Hi")`. -/
def shorterSet : List Call :=
  [.set ⟨[84, 69, 83, 84, 32, 49, 10], by decide⟩, .set ⟨[72, 105], by decide⟩]

/-- The shorter string leaves the end of the longer one behind. -/
theorem prints_stale_bytes :
    (stringRun (gcEnv fun _ => 99) shorterSet).bind ropeContent = some [72, 105] ∧
      (stringRun (gcEnv fun _ => 99) shorterSet).bind stringClassPrint =
        some [72, 105, 83, 84, 32, 49, 10] ∧
      ¬ Along (call (gcEnv fun _ => 99)) PrintsContent (ropeNew2 (gcEnv fun _ => 99)) shorterSet := by
  have hcontent : (stringRun (gcEnv fun _ => 99) shorterSet).bind ropeContent = some [72, 105] := by
    decide +kernel
  have hprint : (stringRun (gcEnv fun _ => 99) shorterSet).bind stringClassPrint =
      some [72, 105, 83, 84, 32, 49, 10] := by
    decide +kernel
  refine ⟨hcontent, hprint, fun h => ?_⟩
  obtain ⟨r, hrun, out, hout, hout'⟩ := h.run
  rw [stringRun, hrun, Option.bind_some] at hcontent hprint
  rw [hout'] at hcontent
  rw [hout, hcontent] at hprint
  revert hprint
  decide

end MutantC.StringClass
