import MutantC.Lib.Iteration
import MutantC.Lib.Pages
import MutantC.CurryFunc.Trampoline

/-! Where `curry_func` puts its trampolines, which pages it takes the write permission from, and what
`free_curry` gives back, over every run of the two and with any collector that keeps its promises. -/

namespace MutantC.CurryFunc
open CBuffer Iteration Pages X86

def pageSize : ℕ := 4096

structure Block where
  base : Word
  size : ℕ
deriving DecidableEq

/-- What the calls of the collector do with its own state `γ` and the memory; `none` for a call that
does not return or has no block left. -/
structure Collector (γ : Type) where
  gcMalloc : γ → Pages.Memory → ℕ → Option (γ × Pages.Memory × Word)
  gcBase : γ → Word → Word
  gcFree : γ → Pages.Memory → Word → Option (γ × Pages.Memory)

structure Heap (γ : Type) where
  mem : Pages.Memory
  gc : γ

/-- `((uint64_t)base+PAGESIZE) & ~ (uint64_t)PAGESIZE` -/
def trampAddr (base : Word) : Word :=
  (base + BitVec.ofNat 64 pageSize) &&& ~~~(BitVec.ofNat 64 pageSize)

def curryAllocSize : ℕ := curryTramp.length + pageSize

structure Curried where
  addr : Word
  func : Word
  param : Word
deriving DecidableEq

structure State (γ : Type) where
  heap : Heap γ
  live : List Curried

inductive Op
  | curry (func param : Word)
  | free (func : Word)

def start {γ : Type} (mem : Pages.Memory) (g : γ) : State γ := ⟨⟨mem, g⟩, []⟩

section Program
variable {γ : Type} (gc : Collector γ)

def curryAlloc (h : Heap γ) : Option (Heap γ × Word) := do
  let r ← gc.gcMalloc h.gc h.mem curryAllocSize
  let ptr := trampAddr r.2.2
  some (⟨r.2.1.protect pageSize ptr.toNat curryTramp.length .readWrite, r.1⟩, ptr)

def curryFunc (h : Heap γ) (func param : Word) : Option (Heap γ × Word) := do
  let r ← curryAlloc gc h
  let curryMem := r.2.toNat
  let mem ← r.1.mem.write pageSize curryMem curryTramp
  let mem ← mem.write pageSize (curryMem + curryTrampParamOffset) (leBytes 8 param.toNat)
  let mem ← mem.write pageSize (curryMem + curryTrampFuncptrOffset) (leBytes 8 func.toNat)
  some (⟨mem.protect pageSize curryMem curryTramp.length .readExec, r.1.gc⟩, r.2)

def freeCurry (h : Heap γ) (func : Word) : Option (Heap γ) := do
  let base := gc.gcBase h.gc func
  let ptr := trampAddr base
  let r ← gc.gcFree h.gc (h.mem.protect pageSize ptr.toNat curryTramp.length .readWrite) base
  some ⟨r.2, r.1⟩

def step (s : State γ) : Op → Option (State γ)
  | .curry func param => do
    let r ← curryFunc gc s.heap func param
    some ⟨r.1, ⟨r.2, func, param⟩ :: s.live⟩
  | .free func => do
    let h ← freeCurry gc s.heap func
    some ⟨h, s.live.filter (·.addr ≠ func)⟩

end Program

/-! ### What the collector promises -/

def Block.Holds (b : Block) (a : ℕ) : Prop := b.base.toNat ≤ a ∧ a < b.base.toNat + b.size

instance (b : Block) (a : ℕ) : Decidable (b.Holds a) := inferInstanceAs (Decidable (_ ∧ _))

def Block.Apart (b c : Block) : Prop :=
  b.base.toNat + b.size ≤ c.base.toNat ∨ c.base.toNat + c.size ≤ b.base.toNat

instance (b c : Block) : Decidable (b.Apart c) := inferInstanceAs (Decidable (_ ∨ _))

/-- A block of whole pages, big enough for what `curry_alloc` asks, that does not wrap. -/
structure Block.Whole (b : Block) : Prop where
  base_aligned : pageSize ∣ b.base.toNat
  size_aligned : pageSize ∣ b.size
  room : curryAllocSize ≤ b.size
  no_wrap : b.base.toNat + b.size ≤ 2 ^ 64

instance (b : Block) : Decidable b.Whole :=
  decidable_of_iff (pageSize ∣ b.base.toNat ∧ pageSize ∣ b.size ∧ curryAllocSize ≤ b.size ∧
    b.base.toNat + b.size ≤ 2 ^ 64) ⟨fun h => ⟨h.1, h.2.1, h.2.2.1, h.2.2.2⟩,
      fun h => ⟨h.base_aligned, h.size_aligned, h.room, h.no_wrap⟩⟩

/-- Of the memory only the block has changed, and its pages are writable. -/
structure Block.Changes (b : Block) (mem mem' : Pages.Memory) : Prop where
  writable : mem'.Writable pageSize b.base.toNat b.size
  prot : ∀ q, ¬ Memory.Touches pageSize b.base.toNat b.size q → mem'.prot q = mem.prot q
  read : ∀ a n, a + n ≤ b.base.toNat ∨ b.base.toNat + b.size ≤ a → mem'.read a n = mem.read a n

section Promises
variable {γ : Type}

def Collector.FindsBase (gc : Collector γ) (g : γ) (b : Block) : Prop :=
  ∀ p : Word, b.Holds p.toNat → gc.gcBase g p = b.base

/-- What is taken for granted of the collector, with the blocks that it has handed out and not got back:
new blocks are whole, writable and apart from the others, and a block is taken back, and written to,
when all its pages are writable. -/
structure Collector.Lawful (gc : Collector γ) (blocks : γ → List Block) : Prop where
  malloc_block : ∀ {g g' : γ} {mem mem' : Pages.Memory} {base : Word},
    gc.gcMalloc g mem curryAllocSize = some (g', mem', base) →
      ∃ size, blocks g' = ⟨base, size⟩ :: blocks g ∧ Block.Whole ⟨base, size⟩ ∧
        (∀ b ∈ blocks g, b.Apart ⟨base, size⟩) ∧ Block.Changes ⟨base, size⟩ mem mem'
  findsBase : ∀ {g : γ}, ∀ b ∈ blocks g, gc.FindsBase g b
  free_iff : ∀ {g : γ} {mem : Pages.Memory}, ∀ b ∈ blocks g,
    (∃ r, gc.gcFree g mem b.base = some r) ↔ mem.Writable pageSize b.base.toNat b.size
  free_block : ∀ {g g' : γ} {mem mem' : Pages.Memory}, ∀ b ∈ blocks g,
    gc.gcFree g mem b.base = some (g', mem') →
      blocks g' = (blocks g).filter (·.base ≠ b.base) ∧ b.Changes mem mem'

variable (gc : Collector γ) (blocks : γ → List Block)

/-- The collector has a block left, and what is freed is a curried function that is live. -/
def Possible (s : State γ) : Op → Prop
  | .curry _ _ => (gc.gcMalloc s.heap.gc s.heap.mem curryAllocSize).isSome
  | .free func => ∃ f ∈ s.live, f.addr = func

/-- The trampoline lies in a block of which `free_curry` finds the base, and from the base the
trampoline. -/
def Placed (h : Heap γ) (addr : Word) : Prop :=
  ∃ b ∈ blocks h.gc, b.base.toNat ≤ addr.toNat ∧
    addr.toNat + curryTramp.length ≤ b.base.toNat + b.size ∧
    gc.gcBase h.gc addr = b.base ∧ trampAddr b.base = addr

structure Kept (s : State γ) : Prop where
  placed : ∀ f ∈ s.live, Placed gc blocks s.heap f.addr
  pages : ∀ q, (s.heap.mem.prot q).write = false ↔
    ∃ f ∈ s.live, Memory.Touches pageSize f.addr.toNat curryTramp.length q
  code : ∀ f ∈ s.live, curryFuncCode f.func f.param =
    some (s.heap.mem.read f.addr.toNat curryTramp.length)

end Promises

section Address

theorem and_not_add_and (x m : Word) : (x &&& ~~~m) + (x &&& m) = x := by
  have hdisj : (x &&& ~~~m) &&& (x &&& m) = 0 := by
    ext i hi
    simp only [BitVec.getElem_and, BitVec.getElem_not]
    cases x[i] <;> cases m[i] <;> simp
  rw [BitVec.add_eq_or_of_and_eq_zero _ _ hdisj]
  ext i hi
  simp only [BitVec.getElem_and, BitVec.getElem_not, BitVec.getElem_or]
  cases x[i] <;> cases m[i] <;> rfl

theorem trampAddr_toNat {base : Word} (h : base.toNat + pageSize < 2 ^ 64) :
    (trampAddr base).toNat = base.toNat ∨ (trampAddr base).toNat = base.toNat + pageSize := by
  have hsum := and_not_add_and (base + BitVec.ofNat 64 pageSize) (BitVec.ofNat 64 pageSize)
  have hbit := BitVec.and_twoPow (base + BitVec.ofNat 64 pageSize) 12
  rw [show BitVec.twoPow 64 12 = BitVec.ofNat 64 pageSize from rfl] at hbit
  rw [hbit] at hsum
  rw [trampAddr]
  split_ifs at hsum with hset
  · left
    rw [(BitVec.add_left_inj _).1 hsum]
  · right
    rw [BitVec.add_zero] at hsum
    rw [hsum, BitVec.toNat_add]
    exact Nat.mod_eq_of_lt h

theorem Block.Whole.trampAddr_cases {b : Block} (hb : b.Whole) :
    (trampAddr b.base).toNat = b.base.toNat ∨ (trampAddr b.base).toNat = b.base.toNat + pageSize := by
  apply trampAddr_toNat
  have hroom := hb.room
  have hwrap := hb.no_wrap
  simp only [curryAllocSize, curryTramp, List.length_cons] at hroom
  omega

theorem Block.Whole.trampAddr_aligned {b : Block} (hb : b.Whole) : pageSize ∣ (trampAddr b.base).toNat := by
  obtain heq | heq := hb.trampAddr_cases
  · rw [heq]
    exact hb.base_aligned
  · rw [heq]
    exact Nat.dvd_add hb.base_aligned dvd_rfl

theorem Block.Whole.trampAddr_inside {b : Block} (hb : b.Whole) :
    b.base.toNat ≤ (trampAddr b.base).toNat ∧
      (trampAddr b.base).toNat + curryTramp.length ≤ b.base.toNat + b.size := by
  have hroom := hb.room
  rw [curryAllocSize] at hroom
  obtain heq | heq := hb.trampAddr_cases <;> omega

theorem Block.Whole.trampAddr_holds {b : Block} (hb : b.Whole) : b.Holds (trampAddr b.base).toNat := by
  obtain ⟨hle, hroom⟩ := hb.trampAddr_inside
  simp only [curryTramp, List.length_cons] at hroom
  exact ⟨hle, by omega⟩

theorem Block.Whole.holds_of_page {b : Block} (hb : b.Whole) {a : ℕ}
    (h : a / pageSize = (trampAddr b.base).toNat / pageSize) : b.Holds a := by
  obtain ⟨hlo, hhi⟩ := Memory.page_bounds (by decide) hb.trampAddr_aligned h
  have hroom := hb.room
  have hsize := hb.size_aligned
  simp only [curryAllocSize, curryTramp, List.length_cons, pageSize] at hroom hsize hlo hhi
  obtain heq | heq := hb.trampAddr_cases
  · exact ⟨by omega, by omega⟩
  · rw [heq, pageSize] at hlo hhi
    exact ⟨by omega, by omega⟩

theorem Block.Whole.touches_iff {b : Block} (hb : b.Whole) {q : ℕ} :
    Memory.Touches pageSize (trampAddr b.base).toNat curryTramp.length q ↔
      q = (trampAddr b.base).toNat / pageSize :=
  Memory.touches_iff (by decide) (by decide) hb.trampAddr_aligned

end Address

section Blocks

structure Sound (blocks : List Block) : Prop where
  whole : ∀ b ∈ blocks, b.Whole
  apart : ∀ b ∈ blocks, ∀ c ∈ blocks, b = c ∨ b.Apart c

variable {blocks : List Block} {b c : Block}

theorem Sound.eq_of_holds (hs : Sound blocks) (hb : b ∈ blocks) (hc : c ∈ blocks) {a : ℕ}
    (hba : b.Holds a) (hca : c.Holds a) : b = c := by
  refine (hs.apart b hb c hc).resolve_right ?_
  rintro (h | h)
  · exact absurd hca.1 (by have := hba.2; omega)
  · exact absurd hba.1 (by have := hca.2; omega)

theorem Block.Whole.holds_base (hb : b.Whole) : b.Holds b.base.toNat := by
  have hroom := hb.room
  simp only [curryAllocSize, curryTramp, List.length_cons] at hroom
  exact ⟨le_rfl, by omega⟩

theorem Sound.eq_of_base (hs : Sound blocks) (hb : b ∈ blocks) (hc : c ∈ blocks)
    (h : c.base = b.base) : c = b := by
  have hholds := (hs.whole c hc).holds_base
  rw [h] at hholds
  exact hs.eq_of_holds hc hb hholds (hs.whole b hb).holds_base

theorem Sound.cons (hs : Sound blocks) (hb : b.Whole) (hapart : ∀ c ∈ blocks, c.Apart b) :
    Sound (b :: blocks) := by
  refine ⟨List.forall_mem_cons.2 ⟨hb, hs.whole⟩, ?_⟩
  intro c hc d hd
  rcases List.mem_cons.1 hc with hcb | hc <;> rcases List.mem_cons.1 hd with hdb | hd
  · exact Or.inl (hcb.trans hdb.symm)
  · exact Or.inr (hcb ▸ (hapart d hd).symm)
  · exact Or.inr (hdb ▸ hapart c hc)
  · exact hs.apart c hc d hd

theorem Sound.filter (hs : Sound blocks) (p : Block → Bool) : Sound (blocks.filter p) :=
  ⟨fun b hb => hs.whole b (List.mem_filter.1 hb).1, fun b hb c hc =>
    hs.apart b (List.mem_filter.1 hb).1 c (List.mem_filter.1 hc).1⟩

theorem Sound.eq_of_touches (hs : Sound blocks) (hb : b ∈ blocks) (hc : c ∈ blocks) {q : ℕ}
    (hq : q = (trampAddr c.base).toNat / pageSize)
    (htouch : Memory.Touches pageSize b.base.toNat b.size q) : c = b := by
  obtain ⟨i, hi, hpage⟩ := htouch
  have hholds : b.Holds (b.base.toNat + i) := ⟨Nat.le_add_right _ _, by omega⟩
  exact hs.eq_of_holds hc hb ((hs.whole c hc).holds_of_page (hpage.trans hq)) hholds

theorem Block.Whole.touches_tramp (hb : b.Whole) :
    Memory.Touches pageSize b.base.toNat b.size ((trampAddr b.base).toNat / pageSize) := by
  obtain ⟨hle, hlt⟩ := hb.trampAddr_holds
  exact ⟨(trampAddr b.base).toNat - b.base.toNat, by omega, by rw [Nat.add_sub_cancel' hle]⟩

end Blocks

section Calls
variable {γ : Type} {gc : Collector γ} {blocks : γ → List Block}

theorem code_stored (mem : Pages.Memory) (tramp : ℕ) (func param : Word) :
    curryFuncCode func param = some ((((mem.overwrite tramp curryTramp).overwrite
      (tramp + curryTrampParamOffset) (leBytes 8 param.toNat)).overwrite
      (tramp + curryTrampFuncptrOffset) (leBytes 8 func.toNat)).read tramp curryTramp.length) := by
  have hparam : writeAt ((mem.overwrite tramp curryTramp).read tramp curryTramp.length)
      curryTrampParamOffset (leBytes 8 param.toNat) = _ :=
    Memory.read_overwrite_inside (by rw [length_leBytes]; decide)
  rw [Memory.read_overwrite] at hparam
  rw [curryFuncCode, hparam, Option.bind_eq_bind, Option.bind_some,
    Memory.read_overwrite_inside (by rw [length_leBytes]; decide)]

theorem curryFunc_spec {h : Heap γ} {g : γ} {mem : Pages.Memory} {b : Block}
    (hmalloc : gc.gcMalloc h.gc h.mem curryAllocSize = some (g, mem, b.base)) (hw : b.Whole)
    (func param : Word) :
    ∃ mem', curryFunc gc h func param = some (⟨mem', g⟩, trampAddr b.base) ∧
      curryFuncCode func param = some (mem'.read (trampAddr b.base).toNat curryTramp.length) ∧
      (∀ q, mem'.prot q =
        if q = (trampAddr b.base).toNat / pageSize then .readExec else mem.prot q) ∧
      ∀ a n, a + n ≤ b.base.toNat ∨ b.base.toNat + b.size ≤ a → mem'.read a n = mem.read a n := by
  have halign : pageSize ∣ (trampAddr b.base).toNat := hw.trampAddr_aligned
  have hinside : b.base.toNat ≤ (trampAddr b.base).toNat ∧
    (trampAddr b.base).toNat + curryTramp.length ≤ b.base.toNat + b.size := hw.trampAddr_inside
  have htouches : ∀ q, Memory.Touches pageSize (trampAddr b.base).toNat curryTramp.length q ↔
    q = (trampAddr b.base).toNat / pageSize := fun q => hw.touches_iff
  generalize htramp : (trampAddr b.base).toNat = tramp at halign hinside htouches
  generalize hmem : mem.protect pageSize tramp curryTramp.length .readWrite = mem₁
  have hstore : ∀ i k, i + k ≤ curryTramp.length → mem₁.Writable pageSize (tramp + i) k := by
    intro i k hik
    rw [← hmem]
    exact Memory.writable_protect halign hik rfl
  refine ⟨(((mem₁.overwrite tramp curryTramp).overwrite (tramp + curryTrampParamOffset)
    (leBytes 8 param.toNat)).overwrite (tramp + curryTrampFuncptrOffset) (leBytes 8 func.toNat)).protect
    pageSize tramp curryTramp.length .readExec, ?_, ?_, fun q => ?_, fun a n hapart => ?_⟩
  -- each of the three stores lies in the page just made writable
  · have hcode : mem₁.write pageSize tramp curryTramp = some (mem₁.overwrite tramp curryTramp) :=
      if_pos (hstore 0 _ (by omega))
    have hparam : (mem₁.overwrite tramp curryTramp).write pageSize (tramp + curryTrampParamOffset)
        (leBytes 8 param.toNat) = _ :=
      Memory.write_eq (hstore _ _ (by rw [length_leBytes]; decide))
    have hfunc : ((mem₁.overwrite tramp curryTramp).overwrite (tramp + curryTrampParamOffset)
        (leBytes 8 param.toNat)).write pageSize (tramp + curryTrampFuncptrOffset)
        (leBytes 8 func.toNat) = _ :=
      Memory.write_eq (hstore _ _ (by rw [length_leBytes]; decide))
    simp only [curryFunc, curryAlloc, hmalloc, Option.bind_eq_bind, Option.bind_some, htramp, hmem,
      hcode, hparam, hfunc]
  · rw [Memory.protect_read]
    exact code_stored mem₁ tramp func param
  · rw [Memory.protect_prot halign, Memory.overwrite_prot, Memory.overwrite_prot,
      Memory.overwrite_prot, ← hmem, Memory.protect_prot halign]
    -- the page of the trampoline was set twice, and the last protection stays
    simp only [htouches]
    split_ifs <;> rfl
  · have hlen : curryTramp.length = 37 := rfl
    simp only [curryTrampParamOffset, curryTrampFuncptrOffset]
    rw [Memory.protect_read, Memory.read_overwrite_apart (by rw [length_leBytes]; omega),
      Memory.read_overwrite_apart (by rw [length_leBytes]; omega),
      Memory.read_overwrite_apart (by omega), ← hmem, Memory.protect_read]

theorem freeCurry_spec (hgc : gc.Lawful blocks) {h : Heap γ} (hs : Sound (blocks h.gc)) {b : Block}
    (hb : b ∈ blocks h.gc)
    (hwritable : ∀ a, b.Holds a → a / pageSize ≠ (trampAddr b.base).toNat / pageSize →
      (h.mem.prot (a / pageSize)).write = true) :
    ∃ h', freeCurry gc h (trampAddr b.base) = some h' ∧
      blocks h'.gc = (blocks h.gc).filter (·.base ≠ b.base) ∧ b.Changes h.mem h'.mem := by
  have hw := hs.whole b hb
  generalize hmem : h.mem.protect pageSize (trampAddr b.base).toNat curryTramp.length .readWrite = mem
  have hprot : ∀ q, mem.prot q =
      if q = (trampAddr b.base).toNat / pageSize then .readWrite else h.mem.prot q := by
    intro q
    rw [← hmem, Memory.protect_prot hw.trampAddr_aligned]
    simp only [hw.touches_iff]
  have hall : mem.Writable pageSize b.base.toNat b.size := by
    intro i hi
    rw [hprot]
    split_ifs with hpage
    · rfl
    · exact hwritable _ ⟨by omega, by omega⟩ hpage
  obtain ⟨r, hfree⟩ := (hgc.free_iff b hb).2 hall
  obtain ⟨hblocks, hchanges⟩ := hgc.free_block b hb hfree
  have hbase : gc.gcBase h.gc (trampAddr b.base) = b.base := hgc.findsBase b hb _ hw.trampAddr_holds
  refine ⟨⟨r.2, r.1⟩, ?_, hblocks, ⟨hchanges.writable, fun q hq => ?_, fun a n hapart => ?_⟩⟩
  · simp only [freeCurry, hbase, hmem, hfree, Option.bind_eq_bind, Option.bind_some]
  · have hne : q ≠ (trampAddr b.base).toNat / pageSize := fun heq => hq (heq ▸ hw.touches_tramp)
    rw [hchanges.prot q hq, hprot, if_neg hne]
  · rw [hchanges.read a n hapart, ← hmem, Memory.protect_read]

end Calls

section Run
variable {γ : Type} {gc : Collector γ} {blocks : γ → List Block}

structure Inv (gc : Collector γ) (blocks : γ → List Block) (s : State γ) : Prop
    extends Kept gc blocks s where
  sound : Sound (blocks s.heap.gc)

theorem Collector.Lawful.placed (hgc : gc.Lawful blocks) {h : Heap γ} (hs : Sound (blocks h.gc))
    {b : Block} (hb : b ∈ blocks h.gc) : Placed gc blocks h (trampAddr b.base) := by
  have hw := hs.whole b hb
  obtain ⟨hle, hroom⟩ := hw.trampAddr_inside
  exact ⟨b, hb, hle, hroom, hgc.findsBase b hb _ hw.trampAddr_holds, rfl⟩

/-- The page of a trampoline is in no block but that of the trampoline. -/
theorem Placed.on_page {h : Heap γ} {addr : Word} (hp : Placed gc blocks h addr) {l : List Block}
    (hs : Sound l) (hsub : ∀ c ∈ blocks h.gc, c ∈ l) {b : Block} (hb : b ∈ l) {q : ℕ}
    (hq : Memory.Touches pageSize b.base.toNat b.size q)
    (htouch : Memory.Touches pageSize addr.toNat curryTramp.length q) :
    trampAddr b.base = addr ∧ q = addr.toNat / pageSize := by
  obtain ⟨c, hc, -, -, -, rfl⟩ := hp
  have hpage := (hs.whole c (hsub c hc)).touches_iff.1 htouch
  obtain rfl := hs.eq_of_touches hb (hsub c hc) hpage hq
  exact ⟨rfl, hpage⟩

variable {s : State γ}

/-- A page without write permission lies in the block of a live trampoline. -/
theorem Inv.host_of_page (hi : Inv gc blocks s) {a : ℕ}
    (h : (s.heap.mem.prot (a / pageSize)).write = false) :
    ∃ b ∈ blocks s.heap.gc, b.Holds a ∧ a / pageSize = (trampAddr b.base).toNat / pageSize := by
  obtain ⟨f, hf, htouch⟩ := (hi.pages _).1 h
  obtain ⟨b, hb, -, -, -, haddr⟩ := hi.placed f hf
  rw [← haddr, (hi.sound.whole b hb).touches_iff] at htouch
  exact ⟨b, hb, (hi.sound.whole b hb).holds_of_page htouch, htouch⟩

theorem Inv.curry (hgc : gc.Lawful blocks) (hi : Inv gc blocks s) {func param : Word}
    (hp : Possible gc s (.curry func param)) :
    ∃ s', step gc s (.curry func param) = some s' ∧ Inv gc blocks s' := by
  obtain ⟨⟨g, mem₀, base⟩, hmalloc⟩ := Option.isSome_iff_exists.1 hp
  obtain ⟨size, hblocks, hw, hapart, hchanges⟩ := hgc.malloc_block hmalloc
  generalize hb : (⟨base, size⟩ : Block) = b at hblocks hw hapart hchanges
  obtain rfl : b.base = base := hb ▸ rfl
  obtain ⟨mem, hstep, hcode, hprot, hframe⟩ := curryFunc_spec hmalloc hw func param
  have hsound : Sound (blocks g) := hblocks ▸ hi.sound.cons hw hapart
  have hnew : b ∈ blocks g := hblocks ▸ List.mem_cons_self
  have hold : ∀ c ∈ blocks s.heap.gc, c ∈ blocks g := fun c hc => hblocks ▸ List.mem_cons_of_mem _ hc
  refine ⟨⟨⟨mem, g⟩, ⟨trampAddr b.base, func, param⟩ :: s.live⟩, ?_, ⟨⟨?_, fun q => ?_, ?_⟩, hsound⟩⟩
  · simp only [step, hstep, Option.bind_eq_bind, Option.bind_some]
  · refine List.forall_mem_cons.2 ⟨hgc.placed hsound hnew, fun f hf => ?_⟩
    obtain ⟨c, hc, -, -, -, haddr⟩ := hi.placed f hf
    rw [← haddr]
    exact hgc.placed hsound (hold c hc)
  · have htouches : Memory.Touches pageSize (trampAddr b.base).toNat curryTramp.length q ↔
      q = (trampAddr b.base).toNat / pageSize := hw.touches_iff
    simp only [List.exists_mem_cons_iff, htouches, hprot]
    split_ifs with hq
    · exact ⟨fun _ => Or.inl hq, fun _ => rfl⟩
    rw [or_iff_right hq]
    by_cases htouch : Memory.Touches pageSize b.base.toNat b.size q
    · -- the other pages of the new block are writable, and no trampoline is in them
      obtain ⟨i, hin, hpage⟩ := htouch
      have hwrite := hchanges.writable i hin
      rw [hpage] at hwrite
      refine iff_of_false (by rw [hwrite]; exact Bool.noConfusion) ?_
      rintro ⟨f, hf, hftouch⟩
      obtain ⟨haddr, hfpage⟩ := (hi.placed f hf).on_page hsound hold hnew ⟨i, hin, hpage⟩ hftouch
      exact hq (haddr ▸ hfpage)
    · rw [hchanges.prot q htouch, hi.pages]
  · refine List.forall_mem_cons.2 ⟨hcode, fun f hf => ?_⟩
    obtain ⟨c, hc, hle, hroom, -, -⟩ := hi.placed f hf
    have hout : f.addr.toNat + curryTramp.length ≤ b.base.toNat ∨
        b.base.toNat + b.size ≤ f.addr.toNat := by
      rcases hapart c hc with h | h
      · exact Or.inl (hroom.trans h)
      · exact Or.inr (h.trans hle)
    rw [hi.code f hf, hframe _ _ hout, hchanges.read _ _ hout]

theorem Inv.free (hgc : gc.Lawful blocks) (hi : Inv gc blocks s) {func : Word}
    (hp : Possible gc s (.free func)) :
    ∃ s', step gc s (.free func) = some s' ∧ Inv gc blocks s' := by
  obtain ⟨f, hf, hfunc⟩ := hp
  obtain ⟨b, hb, -, -, -, haddr⟩ := hi.placed f hf
  rw [hfunc] at haddr
  subst haddr
  -- the page of the trampoline is the only one of the block that is not writable
  have hwritable : ∀ a, b.Holds a → a / pageSize ≠ (trampAddr b.base).toNat / pageSize →
      (s.heap.mem.prot (a / pageSize)).write = true := by
    intro a ha hpage
    by_contra hno
    obtain ⟨c, hc, hca, hpagec⟩ := hi.host_of_page (eq_false_of_ne_true hno)
    obtain rfl := hi.sound.eq_of_holds hb hc ha hca
    exact hpage hpagec
  -- and the other trampolines lie in other blocks
  have hother : ∀ g ∈ s.live, g.addr ≠ trampAddr b.base → ∃ c ∈ blocks s.heap.gc, c ≠ b ∧
      g.addr.toNat + curryTramp.length ≤ c.base.toNat + c.size ∧ c.base.toNat ≤ g.addr.toNat ∧
        trampAddr c.base = g.addr := by
    intro g hg hne
    obtain ⟨c, hc, hle, hroom, -, haddr⟩ := hi.placed g hg
    refine ⟨c, hc, ?_, hroom, hle, haddr⟩
    rintro rfl
    exact hne haddr.symm
  obtain ⟨h', hstep, hblocks, hchanges⟩ := freeCurry_spec hgc hi.sound hb hwritable
  have hsound : Sound (blocks h'.gc) := hblocks ▸ hi.sound.filter (·.base ≠ b.base)
  refine ⟨⟨h', s.live.filter (·.addr ≠ trampAddr b.base)⟩,
    ?_, ⟨⟨fun g hg => ?_, fun q => ?_, fun g hg => ?_⟩, hsound⟩⟩
  · simp only [step, hstep, Option.bind_eq_bind, Option.bind_some]
  · obtain ⟨hlive, hne⟩ := List.mem_filter.1 hg
    obtain ⟨c, hc, hcb, -, -, haddr⟩ := hother g hlive (of_decide_eq_true hne)
    rw [← haddr]
    apply hgc.placed hsound
    rw [hblocks]
    refine List.mem_filter.2 ⟨hc, decide_eq_true ?_⟩
    exact fun hbase => hcb (hi.sound.eq_of_base hb hc hbase)
  · by_cases htouch : Memory.Touches pageSize b.base.toNat b.size q
    · have hnone : ¬ ∃ g ∈ s.live.filter (·.addr ≠ trampAddr b.base),
          Memory.Touches pageSize g.addr.toNat curryTramp.length q := by
        rintro ⟨g, hg, hgtouch⟩
        obtain ⟨hlive, hne⟩ := List.mem_filter.1 hg
        have haddr := ((hi.placed g hlive).on_page hi.sound (fun _ hc => hc) hb htouch hgtouch).1
        exact of_decide_eq_true hne haddr.symm
      obtain ⟨i, hin, rfl⟩ := htouch
      exact iff_of_false (by rw [hchanges.writable i hin]; exact Bool.noConfusion) hnone
    · rw [hchanges.prot q htouch, hi.pages]
      constructor
      · rintro ⟨g, hg, hgtouch⟩
        refine ⟨g, List.mem_filter.2 ⟨hg, decide_eq_true fun heq => htouch ?_⟩, hgtouch⟩
        rw [heq, (hi.sound.whole b hb).touches_iff] at hgtouch
        exact hgtouch ▸ (hi.sound.whole b hb).touches_tramp
      · rintro ⟨g, hg, hgtouch⟩
        exact ⟨g, (List.mem_filter.1 hg).1, hgtouch⟩
  · obtain ⟨hlive, hne⟩ := List.mem_filter.1 hg
    obtain ⟨c, hc, hcb, hroom, hle, -⟩ := hother g hlive (of_decide_eq_true hne)
    rw [hi.code g hlive, hchanges.read]
    rcases (hi.sound.apart c hc b hb).resolve_left hcb with h | h
    · exact Or.inl (hroom.trans h)
    · exact Or.inr (h.trans hle)

theorem Inv.start {mem : Pages.Memory} (hmem : ∀ q, (mem.prot q).write = true) {g : γ}
    (hg : blocks g = []) : Inv gc blocks (start mem g) := by
  refine ⟨⟨by simp [CurryFunc.start], fun q => ?_, by simp [CurryFunc.start]⟩, ⟨?_, ?_⟩⟩
  · simp [CurryFunc.start, hmem q]
  · simp [CurryFunc.start, hg]
  · simp [CurryFunc.start, hg]

/-- No run of `curry_func` and `free_curry` fails, and every state of it keeps its trampolines: inside
their blocks, found again from them, alone without write permission, and with their code. -/
theorem trampolines_kept (hgc : gc.Lawful blocks) {mem : Pages.Memory}
    (hmem : ∀ q, (mem.prot q).write = true) {g : γ} (hg : blocks g = []) {ops : List Op}
    (hops : Meets (step gc) (Possible gc) (CurryFunc.start mem g) ops) :
    Along (step gc) (Kept gc blocks) (CurryFunc.start mem g) ops := by
  apply along_of_meets (I := Inv gc blocks) _ (fun s hi => hi.toKept) (Inv.start hmem hg) hops
  intro s op hi hp
  cases op with
  | curry func param => exact hi.curry hgc hp
  | free func => exact hi.free hgc hp

theorem curry_outcome {s' : State γ} {g : γ} {mem : Pages.Memory} {func param base : Word}
    (hmalloc : gc.gcMalloc s.heap.gc s.heap.mem curryAllocSize = some (g, mem, base))
    (h : step gc s (.curry func param) = some s') :
    s'.heap.gc = g ∧ s'.live = ⟨trampAddr base, func, param⟩ :: s.live := by
  simp only [step, curryFunc, curryAlloc, hmalloc, Option.bind_eq_bind, Option.bind_some,
    Option.bind_eq_some_iff, Option.some.injEq] at h
  obtain ⟨r, ⟨m, -, m', -, m'', -, rfl⟩, rfl⟩ := h
  exact ⟨rfl, rfl⟩

end Run

/-! ### A collector -/

section FirstFit

def addBlock (blocks : {blocks : List Block // Sound blocks}) (b : Block) :
    Option {blocks : List Block // Sound blocks} :=
  if h : b.Whole ∧ ∀ c ∈ blocks.1, c.Apart b then some ⟨b :: blocks.1, blocks.2.cons h.1 h.2⟩ else none

def pagesFor (n : ℕ) : ℕ := (n / pageSize + 1) * pageSize

/-- A collector that gives the first of the addresses where the pages are free, cleared and writable. -/
def firstFit (bases : List Word) : Collector {blocks : List Block // Sound blocks} where
  gcMalloc blocks mem n := bases.findSome? fun base =>
    (addBlock blocks ⟨base, pagesFor n⟩).map fun blocks =>
      (blocks, (mem.overwrite base.toNat (List.replicate (pagesFor n) 0)).protect pageSize base.toNat
        (pagesFor n) .readWrite, base)
  gcBase blocks p := ((blocks.1.find? fun b => b.Holds p.toNat).map Block.base).getD 0
  gcFree blocks mem base := do
    let b ← blocks.1.find? (·.base = base)
    guard (mem.Writable pageSize base.toNat b.size)
    some (⟨blocks.1.filter (·.base ≠ base), blocks.2.filter _⟩, mem)

variable {blocks blocks' : {blocks : List Block // Sound blocks}} {b : Block}

theorem addBlock_some (h : addBlock blocks b = some blocks') :
    blocks'.1 = b :: blocks.1 ∧ b.Whole ∧ ∀ c ∈ blocks.1, c.Apart b := by
  unfold addBlock at h
  split_ifs at h with hfits
  obtain rfl := Option.some.inj h
  exact ⟨rfl, hfits⟩

theorem find_unique {l : List Block} {p : Block → Bool} (hb : b ∈ l) (hp : p b = true)
    (hunique : ∀ c ∈ l, p c = true → c = b) : l.find? p = some b := by
  obtain ⟨c, hc⟩ := Option.isSome_iff_exists.1 (List.find?_isSome.2 ⟨b, hb, hp⟩)
  rw [hc, hunique c (List.mem_of_find?_eq_some hc) (List.find?_some hc)]

theorem Sound.find_holds {l : List Block} (hs : Sound l) (hb : b ∈ l) {a : ℕ} (ha : b.Holds a) :
    l.find? (fun b => b.Holds a) = some b :=
  find_unique hb (decide_eq_true ha) fun _ hc hholds =>
    hs.eq_of_holds hc hb (of_decide_eq_true hholds) ha

theorem Sound.find_base {l : List Block} (hs : Sound l) (hb : b ∈ l) :
    l.find? (·.base = b.base) = some b :=
  find_unique hb (decide_eq_true rfl) fun _ hc heq => hs.eq_of_base hb hc (of_decide_eq_true heq)

theorem changes_fresh {mem : Pages.Memory} (halign : pageSize ∣ b.base.toNat) :
    b.Changes mem ((mem.overwrite b.base.toNat (List.replicate b.size 0)).protect pageSize
      b.base.toNat b.size .readWrite) := by
  refine ⟨fun i hi => ?_, fun q hq => ?_, fun a n hapart => ?_⟩
  · rw [Memory.protect_prot halign, if_pos ⟨i, hi, rfl⟩]
    rfl
  · rw [Memory.protect_prot halign, if_neg hq, Memory.overwrite_prot]
  · rw [Memory.protect_read, Memory.read_overwrite_apart (by rwa [List.length_replicate])]

theorem firstFit_lawful (bases : List Word) : (firstFit bases).Lawful Subtype.val := by
  have hfree : ∀ {blocks : {blocks : List Block // Sound blocks}} {mem : Pages.Memory}, ∀ b ∈ blocks.1,
      (firstFit bases).gcFree blocks mem b.base =
        if mem.Writable pageSize b.base.toNat b.size then
          some (⟨blocks.1.filter (·.base ≠ b.base), blocks.2.filter _⟩, mem)
        else none := by
    intro blocks mem b hb
    simp only [firstFit, blocks.2.find_base hb, Option.bind_eq_bind, Option.bind_some]
    split_ifs with hw
    · exact guard_bind hw _
    · rw [guard, if_neg hw]
      rfl
  refine ⟨fun h => ?_, fun b hb p hp => ?_, fun b hb => ?_, fun b hb h => ?_⟩
  · obtain ⟨base, -, hbase⟩ := List.exists_of_findSome?_eq_some h
    obtain ⟨blocks', hadd, heq⟩ := Option.map_eq_some_iff.1 hbase
    obtain ⟨hblocks, hw, hapart⟩ := addBlock_some hadd
    simp only [Prod.mk.injEq] at heq
    obtain ⟨rfl, rfl, rfl⟩ := heq
    exact ⟨_, hblocks, hw, hapart, changes_fresh hw.base_aligned⟩
  · simp only [firstFit, Sound.find_holds (Subtype.prop _) hb hp, Option.map_some, Option.getD_some]
  · rw [hfree b hb]
    split_ifs with hw
    · exact iff_of_true ⟨_, rfl⟩ hw
    · refine iff_of_false ?_ hw
      rintro ⟨r, hr⟩
      cases hr
  · rw [hfree b hb] at h
    split_ifs at h with hw
    obtain ⟨rfl, rfl⟩ := Prod.mk.inj (Option.some.inj h)
    exact ⟨rfl, hw, fun q _ => rfl, fun a n _ => rfl⟩

/-- Two blocks, the first with its trampoline in the first page, the second in the second. -/
theorem trampolines_kept_two :
    Along (step (firstFit [0x10000, 0x13000])) (Kept (firstFit [0x10000, 0x13000]) Subtype.val)
      (CurryFunc.start ⟨fun _ => 0, fun _ => .readWrite⟩ ⟨[], by simp, by simp⟩)
      [.curry 0x401000 0x602010, .curry 0x401000 0x602020, .free 0x10000] := by
  apply trampolines_kept (firstFit_lawful _) (fun _ => rfl) rfl
  refine ⟨rfl, fun s₁ h₁ => ?_⟩
  obtain ⟨hgc₁, hlive₁⟩ := curry_outcome rfl h₁
  have hmalloc : ∃ g mem, (firstFit [0x10000, 0x13000]).gcMalloc s₁.heap.gc s₁.heap.mem
      curryAllocSize = some (g, mem, 0x13000) := by
    rw [hgc₁]
    exact ⟨_, _, rfl⟩
  obtain ⟨g, mem, hmalloc⟩ := hmalloc
  refine ⟨?_, fun s₂ h₂ => ⟨?_, fun _ _ => trivial⟩⟩
  · rw [Possible, hmalloc]
    rfl
  · obtain ⟨-, hlive₂⟩ := curry_outcome hmalloc h₂
    rw [Possible, hlive₂, hlive₁]
    exact ⟨⟨trampAddr 0x10000, 0x401000, 0x602010⟩, by simp, by decide⟩

end FirstFit

/-! ### Blocks that start anywhere -/

section Anywhere
variable {γ : Type} {gc : Collector γ} {h h' : Heap γ} {g : γ} {mem : Pages.Memory} {base addr : Word}

/-- What `curry_alloc` computes and `free_curry` computes again starts a page and leaves room in the
block for the trampoline. -/
structure OnPage (gc : Collector γ) (g : γ) (base addr : Word) : Prop where
  recomputed : trampAddr (gc.gcBase g addr) = addr
  aligned : pageSize ∣ addr.toNat
  inside : base.toNat ≤ addr.toNat ∧ addr.toNat + curryTramp.length ≤ base.toNat + curryAllocSize

theorem curryAlloc_some (hmalloc : gc.gcMalloc h.gc h.mem curryAllocSize = some (g, mem, base))
    (hcall : curryAlloc gc h = some (h', addr)) : addr = trampAddr base ∧ h'.gc = g := by
  simp only [curryAlloc, hmalloc, Option.bind_eq_bind, Option.bind_some, Option.some.injEq,
    Prod.mk.injEq] at hcall
  obtain ⟨rfl, rfl⟩ := hcall
  exact ⟨rfl, rfl⟩

theorem trampAddr_aligned_iff (hwrap : base.toNat + pageSize < 2 ^ 64) :
    pageSize ∣ (trampAddr base).toNat ↔ pageSize ∣ base.toNat := by
  obtain heq | heq := trampAddr_toNat hwrap
  · rw [heq]
  · rw [heq, Nat.dvd_add_self_right]

theorem trampAddr_inside (hwrap : base.toNat + pageSize < 2 ^ 64) :
    base.toNat ≤ (trampAddr base).toNat ∧
      (trampAddr base).toNat + curryTramp.length ≤ base.toNat + curryAllocSize := by
  rw [curryAllocSize]
  obtain heq | heq := trampAddr_toNat hwrap <;> omega

/-- In any block that does not wrap and whose base the collector finds, the trampoline starts a page
exactly when the block does. -/
theorem on_page_iff (hmalloc : gc.gcMalloc h.gc h.mem curryAllocSize = some (g, mem, base))
    (hfinds : gc.FindsBase g ⟨base, curryAllocSize⟩) (hwrap : base.toNat + 2 * pageSize < 2 ^ 64)
    (hcall : curryAlloc gc h = some (h', addr)) :
    OnPage gc h'.gc base addr ↔ pageSize ∣ base.toNat := by
  obtain ⟨rfl, rfl⟩ := curryAlloc_some hmalloc hcall
  have hone : base.toNat + pageSize < 2 ^ 64 := by omega
  obtain ⟨hle, hroom⟩ := trampAddr_inside hone
  have hholds : (⟨base, curryAllocSize⟩ : Block).Holds (trampAddr base).toNat := by
    have hcode : curryTramp.length = 37 := rfl
    exact ⟨hle, show _ < base.toNat + curryAllocSize by omega⟩
  rw [← trampAddr_aligned_iff hone]
  exact ⟨fun h => h.aligned, fun h => ⟨congrArg trampAddr (hfinds _ hholds), h, hle, hroom⟩⟩

def blockAt (base : Word) : Collector Unit where
  gcMalloc _ mem _ := some ((), mem, base)
  gcBase _ _ := base
  gcFree _ mem _ := some ((), mem)

/-- A block at the start of a page. -/
theorem on_page_iff_page : ∃ h', curryAlloc (blockAt 0x601000) ⟨⟨fun _ => 0, fun _ => .readWrite⟩, ()⟩ =
    some (h', trampAddr 0x601000) ∧ OnPage (blockAt 0x601000) h'.gc 0x601000 (trampAddr 0x601000) := by
  generalize (⟨⟨fun _ => 0, fun _ => .readWrite⟩, ()⟩ : Heap Unit) = h
  have hmalloc : (blockAt 0x601000).gcMalloc h.gc h.mem curryAllocSize = some ((), h.mem, 0x601000) :=
    rfl
  have hcall : curryAlloc (blockAt 0x601000) h = some (_, trampAddr 0x601000) := rfl
  exact ⟨_, hcall, (on_page_iff hmalloc (fun _ _ => rfl) (by decide) hcall).2 (by decide)⟩

/-- A block 16 bytes into a page: the trampoline is put 16 bytes into a page as well. -/
theorem off_page : ∃ h', curryAlloc (blockAt 0x601010) ⟨⟨fun _ => 0, fun _ => .readWrite⟩, ()⟩ =
    some (h', 0x602010) ∧ ¬ OnPage (blockAt 0x601010) h'.gc 0x601010 0x602010 :=
  ⟨_, rfl, fun h => absurd h.aligned (by decide)⟩

end Anywhere

end MutantC.CurryFunc
