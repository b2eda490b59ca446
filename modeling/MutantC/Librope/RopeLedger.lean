import MutantC.Lib.Ledger
import MutantC.Librope.RopeDelete
import MutantC.Librope.RopeFrame

/-! The rope with a record of the blocks it gives back: every node is released once, and from then on
no link leads to it. -/

namespace MutantC.Librope
open CBuffer Iteration SkipList Ledger

/-- A walk from the head along links of any levels comes to `p`. -/
def Rope.Reaches (r : Rope) (p : Ptr) : Prop :=
  Relation.ReflTransGen (fun q q' => ∃ i s, r.getNext q i = some s ∧ s.next = some q') headPtr p

/-! ### The operations with their record -/

/-- `delRound`, with a moment after the release of the node and one at the end of the round. -/
def delRoundRecorded (l : Record Rope) (e : Ptr) (offset : ℕ) (iter : RopeIter) (length : ℕ) :
    Option (Record Rope × Option Ptr × ℕ) := do
  let r := l.now.state
  let node ← r.nodes e
  let first ← r.getNext e 0
  let numChars := first.skip
  let removed := min length (numChars - offset)
  if removed < numChars ∨ e = headPtr then
    let r ← trimNode r e offset removed
    let r ← lowerLinks r iter node.height removed
    some (l.next none r, some e, removed)
  else
    let r ← unlinkNode r e iter removed
    let s ← r.getNext e 0
    let r ← r.freeNode e
    let l := l.next (some e) r
    let r ← lowerLinks r iter node.height removed
    some (l.next none r, s.next, removed)

def ropeDelLoopRecorded :
    ℕ → Record Rope → Option Ptr → ℕ → RopeIter → ℕ → Option (Record Rope)
  | _, l, _, _, _, 0 => some l
  | 0, _, _, _, _, _ + 1 => none
  | fuel + 1, l, e, offset, iter, length + 1 => do
    let e ← e
    let (e, offset) ← skipEnd l.now.state e offset iter
    let (l, e, removed) ← delRoundRecorded l e offset iter (length + 1)
    ropeDelLoopRecorded fuel l e offset iter (length + 1 - removed)

def ropeDelRecorded (l : Record Rope) (pos length : ℕ) : Option (Record Rope) := do
  let r := l.now.state
  let pos := min pos r.numChars
  let length := min length (r.numChars - pos)
  let (e, iter) ← iterAtCharPos r pos
  ropeDelLoopRecorded (r.brk + 1) (l.next none { r with numChars := r.numChars - length }) (some e)
    (iter 0).skip iter length

def ropeInsertRecorded (env : Env) (l : Record Rope) (pos : ℕ) (str : List Byte) :
    Option (Record Rope) :=
  (ropeInsert env l.now.state pos str).map fun x => l.next none x.2

def ropeFreeLoopRecorded : ℕ → Record Rope → Option Ptr → Option (Record Rope)
  | _, l, none => some l
  | 0, _, some _ => none
  | fuel + 1, l, some n => do
    let s ← l.now.state.getNext n 0
    let r ← l.now.state.freeNode n
    ropeFreeLoopRecorded fuel (l.next (some n) r) s.next

def ropeFreeRecorded (l : Record Rope) : Option (Record Rope) := do
  let s ← l.now.state.getNext headPtr 0
  let l ← ropeFreeLoopRecorded l.now.state.brk l s.next
  let r ← l.now.state.freeNode headPtr
  some (l.next (some headPtr) r)

/-! ### Reachable blocks -/

theorem Rope.Reaches.mono {r r' : Rope} {p : Ptr} (h : r.Reaches p)
    (hnodes : ∀ q n, r.nodes q = some n → r'.nodes q = some n)
    (hnext : ∀ q i, (r'.nexts q i).next = (r.nexts q i).next) : r'.Reaches p := by
  refine Relation.ReflTransGen.mono (fun q q' hq => ?_) _ _ h
  obtain ⟨i, s, hs, hq'⟩ := hq
  obtain ⟨n, hn, hlevel⟩ := Option.bind_eq_some_iff.1 hs
  split_ifs at hlevel with hi
  obtain rfl := Option.some.inj hlevel
  exact ⟨i, _, getNext_eq (hnodes q n hn) hi, (hnext q i).trans hq'⟩

theorem Layout.mem_ids_of_reaches {r : Rope} {H : ℕ} {ls : List Leaf} (hr : Layout r H ls) {p : Ptr}
    (h : r.Reaches p) : p ∈ ids (towers ls) := by
  induction h with
  | refl =>
    obtain ⟨head, t, rfl, haddr, -⟩ := hr.rooted
    exact mem_ids_towers.2 ⟨head, List.mem_cons_self, haddr⟩
  | tail _ hstep ih =>
    obtain ⟨l, hl, rfl⟩ := mem_ids_towers.1 ih
    obtain ⟨i, s, hs, hnext⟩ := hstep
    obtain ⟨xs, ys, rfl⟩ := List.append_of_mem hl
    have hlinked := hr.linked
    rw [towers_append, towers_cons] at hlinked
    rw [Rope.getNext, hr.live l hl, Option.bind_some] at hs
    split_ifs at hs with hi
    obtain rfl := Option.some.inj hs
    have hlink : r.nexts l.addr i = link i l.tower (towers ys) := hlinked.at hi
    rw [hlink, link] at hnext
    obtain ⟨mid, t, rest, heq, rfl, -⟩ := exists_split_of_hop hnext
    rw [towers_append, towers_cons, heq]
    simp

/-- The blocks handed out are accounted for, and no walk comes to one that was given back. -/
structure Tidy (m : Moment Rope) : Prop where
  balanced : Balanced (fun p => m.state.nodes p ≠ none) m.state.brk m.freed
  away : ∀ p ∈ m.freed, ¬ m.state.Reaches p

theorem tidy_of_layout {m : Moment Rope} {H : ℕ} {ls : List Leaf}
    (hb : Balanced (fun p => m.state.nodes p ≠ none) m.state.brk m.freed) (hr : Layout m.state H ls) :
    Tidy m := by
  refine ⟨hb, fun p hp hreach => ?_⟩
  obtain ⟨l, hl, rfl⟩ := mem_ids_towers.1 (hr.mem_ids_of_reaches hreach)
  exact hb.apart _ hp (by rw [hr.live l hl]; exact Option.some_ne_none _)

/-! ### Deletions -/

section
variable {r r' : Rope} {p : Ptr} {freed : List ℕ}

theorem Keeps.balanced (h : Keeps r r') (hb : Balanced (fun p => r.nodes p ≠ none) r.brk freed) :
    Balanced (fun p => r'.nodes p ≠ none) r'.brk freed :=
  hb.extend h.grows.brk_le h.grows.live

theorem freeNode_balanced (h : r.freeNode p = some r')
    (hb : Balanced (fun p => r.nodes p ≠ none) r.brk freed) :
    Balanced (fun p => r'.nodes p ≠ none) r'.brk (p :: freed) := by
  obtain ⟨n, hn, rfl⟩ := Option.map_eq_some_iff.1 h
  refine hb.release (p := p) (by rw [hn]; exact Option.some_ne_none n) fun q => ?_
  show (if q = p then none else r.nodes q) ≠ none ↔ _
  split_ifs with hq <;> simp [hq]

theorem lowerLinks_next {iter : RopeIter} {height removed : ℕ}
    (h : lowerLinks r iter height removed = some r') :
    r'.nodes = r.nodes ∧ ∀ q i, (r'.nexts q i).next = (r.nexts q i).next := by
  obtain ⟨head, -, h⟩ := Option.bind_eq_some_iff.1 h
  refine forRange_keeps (I := fun t => t.nodes = r.nodes ∧
    ∀ q i, (t.nexts q i).next = (r.nexts q i).next) (fun i t t' hk ht => ?_) ⟨rfl, fun _ _ => rfl⟩ h
  obtain ⟨p, -, ht⟩ := Option.bind_eq_some_iff.1 ht
  obtain ⟨s, hs, ht⟩ := Option.bind_eq_some_iff.1 ht
  obtain ⟨n, hn, ht⟩ := Option.bind_eq_some_iff.1 ht
  split_ifs at ht with hi
  obtain rfl := Option.some.inj ht
  obtain rfl := Option.some.inj ((getNext_eq hn hi).symm.trans hs)
  refine ⟨hk.1, fun q j => ?_⟩
  show (if q = p ∧ j = i then _ else t.nexts q j).next = _
  split_ifs with hqj
  · obtain ⟨rfl, rfl⟩ := hqj
    exact hk.2 q j
  · exact hk.2 q j

end

section
variable {l : Record Rope} {iter : RopeIter} {offset n : ℕ}

theorem forall_moments_next {Q : Moment Rope → Prop} {p : Option ℕ} {r : Rope}
    (hl : ∀ m ∈ l.moments, Q m) (hm : Q ⟨r, p.toList ++ l.now.freed⟩) :
    ∀ m ∈ (l.next p r).moments, Q m := by
  rw [Record.moments_next]
  exact List.forall_mem_cons.2 ⟨hm, hl⟩

theorem delRoundRecorded_spec {e : Ptr} {r' : Rope} {e' : Option Ptr} {removed H : ℕ} {ls : List Leaf}
    (h : delRound l.now.state e offset iter n = some (r', e', removed)) (hr' : Layout r' H ls)
    (hl : ∀ m ∈ l.moments, Tidy m) :
    ∃ l', delRoundRecorded l e offset iter n = some (l', e', removed) ∧ l'.now.state = r' ∧
      ∀ m ∈ l'.moments, Tidy m := by
  have hb := (hl l.now l.now_mem_moments).balanced
  obtain ⟨node, hnode, h⟩ := Option.bind_eq_some_iff.1 h
  obtain ⟨first, hfirst, h⟩ := Option.bind_eq_some_iff.1 h
  dsimp only at h
  rw [delRoundRecorded]
  simp only [Option.bind_eq_bind, hnode, hfirst, Option.bind_some]
  split_ifs at h ⊢ with hcase
  · obtain ⟨r₁, htrim, h⟩ := Option.bind_eq_some_iff.1 h
    obtain ⟨r₂, hlower, h⟩ := Option.bind_eq_some_iff.1 h
    obtain ⟨rfl, rfl, rfl⟩ := Option.some.inj h
    refine ⟨l.next none r', by simp only [htrim, hlower, Option.bind_some], rfl, ?_⟩
    have hkeeps := (trimNode_keeps htrim).trans (lowerLinks_keeps hlower)
    exact forall_moments_next hl (tidy_of_layout (hkeeps.balanced hb) hr')
  · obtain ⟨r₁, hunlink, h⟩ := Option.bind_eq_some_iff.1 h
    obtain ⟨s, hs, h⟩ := Option.bind_eq_some_iff.1 h
    obtain ⟨r₂, hfree, h⟩ := Option.bind_eq_some_iff.1 h
    obtain ⟨r₃, hlower, h⟩ := Option.bind_eq_some_iff.1 h
    obtain ⟨rfl, rfl, rfl⟩ := Option.some.inj h
    refine ⟨(l.next (some e) r₂).next none r',
      by simp only [hunlink, hs, hfree, hlower, Option.bind_some], rfl, ?_⟩
    have hb₂ := freeNode_balanced hfree ((unlinkNode_keeps hunlink).balanced hb)
    have htidy : Tidy ⟨r', e :: l.now.freed⟩ :=
      tidy_of_layout ((lowerLinks_keeps hlower).balanced hb₂) hr'
    -- right after the release the links already are those of the end of the round
    obtain ⟨hnodes, hnext⟩ := lowerLinks_next hlower
    have htidy₂ : Tidy ⟨r₂, e :: l.now.freed⟩ := by
      refine ⟨hb₂, fun p hp hreach => htidy.away p hp ?_⟩
      exact hreach.mono (fun q n hq => hnodes ▸ hq) hnext
    exact forall_moments_next (forall_moments_next hl htidy₂) htidy

theorem DelAlong.recorded {H : ℕ} {Q : Rope → Prop} {fuel : ℕ} {e : Option Ptr}
    (h : DelAlong (fun r => ∃ ls, Holds r H ls) Q fuel l.now.state e offset iter n)
    (hQ : ∀ r, Q r → ∃ ls, Holds r H ls) (hl : ∀ m ∈ l.moments, Tidy m) :
    ∃ l', ropeDelLoopRecorded fuel l e offset iter n = some l' ∧
      ropeDelLoop fuel l.now.state e offset iter n = some l'.now.state ∧ Q l'.now.state ∧
      ∀ m ∈ l'.moments, Tidy m := by
  induction fuel generalizing l e offset n with
  | zero =>
    cases n with
    | zero => exact ⟨l, rfl, rfl, h, hl⟩
    | succ n => exact h.elim
  | succ fuel ih =>
    cases n with
    | zero => exact ⟨l, rfl, rfl, h, hl⟩
    | succ n =>
      obtain ⟨-, e₀, e₁, offset₁, r', e', removed, rfl, hskip, hround, hrest⟩ := h
      obtain ⟨ls, hr'⟩ : ∃ ls, Holds r' H ls := hrest.start hQ
      obtain ⟨l₁, hround', rfl, hl₁⟩ := delRoundRecorded_spec hround hr'.toLayout hl
      obtain ⟨l', hrun', hrun, hend, hl'⟩ := ih hrest hl₁
      refine ⟨l', ?_, ?_, hend, hl'⟩
      · rw [ropeDelLoopRecorded]
        simp only [Option.bind_eq_bind, Option.bind_some, hskip, hround', hrun']
      · rw [ropeDelLoop]
        simp only [Option.bind_eq_bind, Option.bind_some, hskip, hround, hrun]

theorem ropeDelRecorded_spec {H : ℕ} {ls : List Leaf} (hr : Repr l.now.state H ls)
    (hl : ∀ m ∈ l.moments, Tidy m) (pos length : ℕ) :
    ∃ l' ls', ropeDelRecorded l pos length = some l' ∧
      ropeDel l.now.state pos length = some l'.now.state ∧ Repr l'.now.state H ls' ∧
      ∀ m ∈ l'.moments, Tidy m := by
  obtain ⟨pre, e, post, a, b, iter, -, hiter, hlength, halong⟩ := ropeDel_along hr pos length
  have hb := (hl l.now l.now_mem_moments).balanced
  have hstart : ∀ k, Tidy ⟨{ l.now.state with numChars := k }, l.now.freed⟩ :=
    fun k => tidy_of_layout hb (hr.toLayout.congr rfl rfl rfl)
  obtain ⟨l', hrun', hrun, hr', hl'⟩ := halong.recorded (l := l.next none { l.now.state with numChars := _ })
    (fun r h => ⟨_, h.toLayout, h.dead, h.numBytes⟩) (forall_moments_next hl (hstart _))
  refine ⟨l', _, ?_, ?_, hr', hl'⟩
  · simp only [ropeDelRecorded, hlength, hiter, Option.bind_eq_bind, Option.bind_some]
    exact hrun'
  · simp only [ropeDel, hlength, hiter, Option.bind_eq_bind, Option.bind_some]
    exact hrun

theorem ropeInsertRecorded_eq {env : Env} {pos : ℕ} {str : List Byte} {res : RopeResult} {r' : Rope}
    {H : ℕ} {ls : List Leaf} (h : ropeInsert env l.now.state pos str = some (res, r'))
    (hr' : Layout r' H ls) (hl : ∀ m ∈ l.moments, Tidy m) :
    ropeInsertRecorded env l pos str = some (l.next none r') ∧
      ∀ m ∈ (l.next none r').moments, Tidy m := by
  refine ⟨by rw [ropeInsertRecorded, h, Option.map_some], forall_moments_next hl ?_⟩
  have hgrows := ropeInsert_grows h
  exact tidy_of_layout ((hl l.now l.now_mem_moments).balanced.extend hgrows.brk_le hgrows.live) hr'

end

/-! ### The end of a rope -/

def Rope.without (r : Rope) (ps : List Ptr) : Rope :=
  { r with nodes := fun q => if q ∈ ps then none else r.nodes q }

theorem freeNode_without {r : Rope} {ps : List Ptr} {p : Ptr} {n : RopeNode} (hp : r.nodes p = some n)
    (hps : p ∉ ps) : (r.without ps).freeNode p = some (r.without (p :: ps)) := by
  have hlive : (r.without ps).nodes p = some n := (if_neg hps).trans hp
  rw [Rope.freeNode, hlive, Option.map_some, Option.some.injEq]
  unfold Rope.without
  congr 1
  funext q
  by_cases hq : q = p
  · simp [hq]
  · simp [hq]

theorem Rope.Reaches.of_without {r : Rope} {ps : List Ptr} {p : Ptr} (h : (r.without ps).Reaches p) :
    r.Reaches p := by
  refine h.mono (fun q n hq => ?_) fun _ _ => rfl
  have hq' : (if q ∈ ps then none else r.nodes q) = some n := hq
  split_ifs at hq' with hmem
  exact hq'

/-- The blocks handed out are accounted for, and no walk comes to a block of `D` that was given back. -/
structure Closing (D : List ℕ) (m : Moment Rope) : Prop where
  balanced : Balanced (fun p => m.state.nodes p ≠ none) m.state.brk m.freed
  away : ∀ p ∈ m.freed, p ∈ D → ¬ m.state.Reaches p

theorem Tidy.closing {m : Moment Rope} (h : Tidy m) (D : List ℕ) : Closing D m :=
  ⟨h.balanced, fun p hp _ => h.away p hp⟩

section
variable {r : Rope} {H : ℕ} {xs ys : List Leaf} {l : Record Rope} {ps : List Ptr}

theorem Layout.first_without {e : Leaf} (hr : Layout r H (xs ++ e :: ys)) (hps : e.addr ∉ ps) :
    (r.without ps).getNext e.addr 0 = some ⟨e.chars.length, ys.head?.map Leaf.addr⟩ := by
  have hlive : (r.without ps).nodes e.addr = r.nodes e.addr := if_neg hps
  rw [← hr.first, Rope.getNext, Rope.getNext, hlive]
  rfl

theorem Layout.closing_next {e : Leaf} (hr : Layout r H (xs ++ e :: ys)) (hps : e.addr ∉ ps)
    (hstate : l.now.state = r.without ps) {D : List ℕ} (hD : ∀ p ∈ D, ¬ r.Reaches p)
    (hl : ∀ m ∈ l.moments, Closing D m) :
    l.now.state.freeNode e.addr = some (r.without (e.addr :: ps)) ∧
      ∀ m ∈ (l.next (some e.addr) (r.without (e.addr :: ps))).moments, Closing D m := by
  have hfree := freeNode_without (hr.live e (by simp)) hps
  rw [← hstate] at hfree
  have hb := freeNode_balanced hfree (hl l.now l.now_mem_moments).balanced
  exact ⟨hfree, forall_moments_next hl ⟨hb, fun p _ hp hreach => hD p hp hreach.of_without⟩⟩

theorem ropeFreeLoopRecorded_spec (hr : Layout r H (xs ++ ys)) (hstate : l.now.state = r.without ps)
    (hps : ∀ e ∈ ys, e.addr ∉ ps) {D : List ℕ} (hD : ∀ p ∈ D, ¬ r.Reaches p)
    (hl : ∀ m ∈ l.moments, Closing D m) {fuel : ℕ} (hfuel : ys.length ≤ fuel) :
    ∃ l', ropeFreeLoopRecorded fuel l (ys.head?.map Leaf.addr) = some l' ∧
      ropeFreeLoop fuel l.now.state (ys.head?.map Leaf.addr) = some l'.now.state ∧
      l'.now.state = r.without ((ys.map Leaf.addr).reverse ++ ps) ∧ ∀ m ∈ l'.moments, Closing D m := by
  induction ys generalizing xs l ps fuel with
  | nil => exact ⟨l, by cases fuel <;> rfl, by cases fuel <;> rfl, hstate, hl⟩
  | cons e ys ih =>
    cases fuel with
    | zero => simp at hfuel
    | succ fuel =>
      have he := hps e List.mem_cons_self
      have hfirst := hr.first_without he
      rw [← hstate] at hfirst
      obtain ⟨hfree, hl₁⟩ := hr.closing_next he hstate hD hl
      have hdistinct : ∀ e' ∈ ys, e'.addr ∉ e.addr :: ps := by
        intro e' he' hmem
        rcases List.mem_cons.1 hmem with heq | hmem
        · have hnd := hr.nodup
          rw [towers_append, towers_cons, ids_append, ids_cons] at hnd
          have hnot := (List.nodup_cons.1 (List.nodup_append.1 hnd).2.1).1
          exact hnot (mem_ids_towers.2 ⟨e', he', heq⟩)
        · exact hps e' (List.mem_cons_of_mem e he') hmem
      have hr' : Layout r H ((xs ++ [e]) ++ ys) := List.append_cons xs e ys ▸ hr
      obtain ⟨l', hrun', hrun, hend, hl'⟩ := ih hr' rfl hdistinct hl₁ (Nat.le_of_succ_le_succ hfuel)
      refine ⟨l', ?_, ?_, ?_, hl'⟩
      · rw [ropeFreeLoopRecorded.eq_def]
        simp only [List.head?_cons, Option.map_some, Option.bind_eq_bind, hfirst, hfree, Option.bind_some]
        exact hrun'
      · rw [ropeFreeLoop.eq_def]
        simp only [List.head?_cons, Option.map_some, Option.bind_eq_bind, hfirst, hfree, Option.bind_some]
        exact hrun
      · rw [hend, List.map_cons, List.reverse_cons, List.append_assoc, List.singleton_append]

theorem ropeFreeRecorded_spec {ls : List Leaf} (hr : Repr l.now.state H ls)
    (hl : ∀ m ∈ l.moments, Tidy m) :
    ∃ l', ropeFreeRecorded l = some l' ∧ ropeFree l.now.state = some l'.now.state ∧
      (∀ p, l'.now.state.nodes p = none) ∧ ∀ m ∈ l'.moments, Closing l.now.freed m := by
  have hnow := hl l.now l.now_mem_moments
  obtain ⟨head, t, rfl, haddr, -⟩ := hr.rooted
  have hr₀ : Layout l.now.state H ([] ++ head :: t) := hr.toLayout
  have hr₁ : Layout l.now.state H ([head] ++ t) := hr.toLayout
  have hlen := hr.length_le_brk
  have haway : ∀ e ∈ t, e.addr ≠ headPtr := hr₁.ne_headPtr (by simp)
  have hnone : l.now.state = l.now.state.without [] := by simp [Rope.without]
  obtain ⟨l₁, hrun', hrun, hstate, hl₁⟩ := ropeFreeLoopRecorded_spec hr₁ hnone (by simp) hnow.away (fun m hm => (hl m hm).closing _)
    (show t.length ≤ l.now.state.brk by simp at hlen; omega)
  have hlast : head.addr ∉ (t.map Leaf.addr).reverse ++ [] := by
    rw [haddr, List.append_nil, List.mem_reverse, List.mem_map]
    rintro ⟨e, he, heq⟩
    exact haway e he heq
  obtain ⟨hfree, hl₂⟩ := hr₀.closing_next hlast hstate hnow.away hl₁
  have hfirst := hr₀.first
  rw [haddr] at hfree hl₂ hfirst
  refine ⟨_, ?_, ?_, ?_, hl₂⟩
  · rw [ropeFreeRecorded]
    simp only [Option.bind_eq_bind, hfirst, Option.bind_some, hrun', hfree]
  · rw [ropeFree]
    simp only [Option.bind_eq_bind, hfirst, Option.bind_some, hrun, hfree]
    rfl
  · intro p
    show (if p ∈ headPtr :: ((t.map Leaf.addr).reverse ++ []) then none else l.now.state.nodes p) = none
    split_ifs with hp
    · rfl
    · refine hr.dead p fun hmem => hp ?_
      obtain ⟨e, he, rfl⟩ := mem_ids_towers.1 hmem
      rcases List.mem_cons.1 he with rfl | he
      · rw [haddr]
        exact List.mem_cons_self
      · simp only [List.append_nil, List.mem_cons, List.mem_reverse, List.mem_map]
        exact Or.inr ⟨e, he, rfl⟩

end

end MutantC.Librope
