import MutantC.Lib.CBuffer

/-! A fragment of x86-64: register moves, loads of immediates, the carry flag, and jumps through a
register, with their encodings. A state fetches and decodes the bytes at its instruction pointer. -/

namespace MutantC.X86
open CBuffer

inductive Reg
  | rax | rcx | rdx | rbx | rsp | rbp | rsi | rdi
  | r8 | r9 | r10 | r11 | r12 | r13 | r14 | r15
deriving DecidableEq

abbrev Word := BitVec 64
abbrev Memory := Word → Byte

@[ext]
structure State where
  regs : Reg → Word
  carry : Bool
  rip : Word
  mem : Memory

inductive Instr
  | mov64 (dst src : Reg)
  | mov32 (dst src : Reg)
  | movImm64 (dst : Reg) (imm : Word)
  | movImm32 (dst : Reg) (imm : BitVec 32)
  | stc
  | jmp (target : Reg)
deriving DecidableEq

section Bytes

def leBytes : ℕ → ℕ → List Byte
  | 0, _ => []
  | n + 1, v => UInt8.ofNat (v % 256) :: leBytes n (v / 256)

def leValue : List Byte → ℕ
  | [] => 0
  | b :: bs => b.toNat + 256 * leValue bs

@[simp] theorem length_leBytes (n v : ℕ) : (leBytes n v).length = n := by
  induction n generalizing v with
  | zero => rfl
  | succ n ih => rw [leBytes, List.length_cons, ih]

theorem leValue_leBytes (n v : ℕ) : leValue (leBytes n v) = v % 256 ^ n := by
  induction n generalizing v with
  | zero => rw [pow_zero, Nat.mod_one, leBytes, leValue]
  | succ n ih =>
    have hbyte : (UInt8.ofNat (v % 256)).toNat = v % 256 := by
      rw [UInt8.toNat_ofNat']
      omega
    rw [leBytes, leValue, ih, hbyte, pow_succ', Nat.mod_mul]

theorem ofNat_leValue_leBytes (v : Word) : BitVec.ofNat 64 (leValue (leBytes 8 v.toNat)) = v := by
  have hmod : v.toNat % 256 ^ 8 = v.toNat := Nat.mod_eq_of_lt v.isLt
  rw [leValue_leBytes, hmod, BitVec.ofNat_toNat, BitVec.setWidth_eq]

end Bytes

section Decode

structure Rex where
  w : Bool
  r : Bool
  b : Bool
deriving DecidableEq

def Rex.none : Rex := ⟨false, false, false⟩

def Rex.ofByte (p : Byte) : Rex := ⟨p &&& 8 != 0, p &&& 4 != 0, p &&& 1 != 0⟩

def regTable : List Reg :=
  [.rax, .rcx, .rdx, .rbx, .rsp, .rbp, .rsi, .rdi, .r8, .r9, .r10, .r11, .r12, .r13, .r14, .r15]

def Reg.ofCode (ext : Bool) (code : Byte) : Reg :=
  regTable.getD (code.toNat % 8 + if ext then 8 else 0) .rax

/-- `89 /r` between registers. -/
def decodeMov (rex : Rex) (modrm : Byte) : Option (Instr × ℕ) :=
  let dst := Reg.ofCode rex.b modrm
  let src := Reg.ofCode rex.r (modrm >>> 3)
  if modrm >>> 6 = 3 then some (if rex.w then .mov64 dst src else .mov32 dst src, 2) else none

/-- `B8+r` with an immediate of the size of its register. -/
def decodeMovImm (rex : Rex) (op : Byte) (bs : List Byte) : Option (Instr × ℕ) :=
  let dst := Reg.ofCode rex.b op
  if rex.w then
    if 8 ≤ bs.length then some (.movImm64 dst (BitVec.ofNat 64 (leValue (bs.take 8))), 9) else none
  else if 4 ≤ bs.length then some (.movImm32 dst (BitVec.ofNat 32 (leValue (bs.take 4))), 5)
  else none

/-- `FF /4` through a register. -/
def decodeJmp (rex : Rex) (modrm : Byte) : Option (Instr × ℕ) :=
  if modrm >>> 6 = 3 ∧ (modrm >>> 3) &&& 7 = 4 then some (.jmp (Reg.ofCode rex.b modrm), 2) else none

def decodeOp (rex : Rex) : List Byte → Option (Instr × ℕ)
  | [] => none
  | op :: bs =>
    if op = 0x89 then bs.head?.bind (decodeMov rex)
    else if op &&& 0xf8 = 0xb8 then decodeMovImm rex op bs
    else if op = 0xff then bs.head?.bind (decodeJmp rex)
    else if op = 0xf9 then some (.stc, 1)
    else none

def decode : List Byte → Option (Instr × ℕ)
  | [] => none
  | b :: bs =>
    if b &&& 0xf0 = 0x40 then (decodeOp (Rex.ofByte b) bs).map fun d => (d.1, d.2 + 1)
    else decodeOp Rex.none (b :: bs)

end Decode

section Execute

def State.set (s : State) (r : Reg) (v : Word) : State :=
  { s with regs := fun q => if q = r then v else s.regs q }

def State.advance (s : State) (len : ℕ) : State := { s with rip := s.rip + BitVec.ofNat 64 len }

def exec (s : State) (len : ℕ) : Instr → State
  | .mov64 dst src => (s.set dst (s.regs src)).advance len
  | .mov32 dst src => (s.set dst (((s.regs src).setWidth 32).setWidth 64)).advance len
  | .movImm64 dst imm => (s.set dst imm).advance len
  | .movImm32 dst imm => (s.set dst (imm.setWidth 64)).advance len
  | .stc => { s with carry := true }.advance len
  | .jmp target => { s with rip := s.regs target }

def fetch (mem : Memory) (a : Word) : ℕ → List Byte
  | 0 => []
  | n + 1 => mem a :: fetch mem (a + 1) n

def maxLength : ℕ := 15

def step (s : State) : Option (Instr × State) :=
  (decode (fetch s.mem s.rip maxLength)).map fun d => (d.1, exec s d.2 d.1)

def runToJump : ℕ → State → Option State
  | 0, _ => none
  | fuel + 1, s =>
    match step s with
    | none => none
    | some (.jmp _, s') => some s'
    | some (_, s') => runToJump fuel s'

theorem runToJump_unique {n m : ℕ} {s t u : State} (ht : runToJump n s = some t)
    (hu : runToJump m s = some u) : t = u := by
  induction n generalizing m s with
  | zero => cases ht
  | succ n ih =>
    cases m with
    | zero => cases hu
    | succ m =>
      unfold runToJump at ht hu
      cases hstep : step s with
      | none =>
        rw [hstep] at ht
        cases ht
      | some d =>
        obtain ⟨i, s'⟩ := d
        rw [hstep] at ht hu
        cases i
        case jmp target => exact Option.some.inj (ht.symm.trans hu)
        all_goals exact ih ht hu

end Execute

section Code

def CodeAt (mem : Memory) : Word → List Byte → Prop
  | _, [] => True
  | a, b :: bs => mem a = b ∧ CodeAt mem (a + 1) bs

theorem add_ofNat_succ (a : Word) (n : ℕ) : a + BitVec.ofNat 64 (n + 1) = a + 1 + BitVec.ofNat 64 n := by
  rw [BitVec.ofNat_add, BitVec.add_comm (BitVec.ofNat 64 n), ← BitVec.add_assoc]
  rfl

theorem codeAt_append {mem : Memory} {a : Word} {bs cs : List Byte} (h : CodeAt mem a (bs ++ cs)) :
    CodeAt mem a bs ∧ CodeAt mem (a + BitVec.ofNat 64 bs.length) cs := by
  induction bs generalizing a with
  | nil =>
    rw [List.length_nil, BitVec.add_zero]
    exact ⟨trivial, h⟩
  | cons b bs ih =>
    obtain ⟨hb, hrest⟩ := h
    obtain ⟨hbs, hcs⟩ := ih hrest
    rw [List.length_cons, add_ofNat_succ]
    exact ⟨⟨hb, hbs⟩, hcs⟩

theorem fetch_of_codeAt {mem : Memory} {a : Word} {bs : List Byte} (h : CodeAt mem a bs) {n : ℕ}
    (hn : bs.length ≤ n) : ∃ rest, fetch mem a n = bs ++ rest := by
  induction bs generalizing a n with
  | nil => exact ⟨_, rfl⟩
  | cons b bs ih =>
    cases n with
    | zero => simp at hn
    | succ n =>
      obtain ⟨hb, hrest⟩ := h
      obtain ⟨rest, hfetch⟩ := ih hrest (Nat.le_of_succ_le_succ hn)
      exact ⟨rest, by rw [fetch, hb, hfetch, List.cons_append]⟩

def overlay (mem : Memory) (a : Word) (bs : List Byte) : Memory :=
  fun x => bs.getD (x - a).toNat (mem x)

theorem codeAt_overlay (mem : Memory) (a : Word) {bs : List Byte} (hlen : bs.length ≤ 2 ^ 64) :
    CodeAt (overlay mem a bs) a bs := by
  have hfrom : ∀ rest pre, bs = pre ++ rest →
      CodeAt (overlay mem a bs) (a + BitVec.ofNat 64 pre.length) rest := by
    intro rest
    induction rest with
    | nil => exact fun _ _ => trivial
    | cons b rest ih =>
      intro pre hbs
      have hlt : pre.length < 2 ^ 64 := by
        rw [hbs, List.length_append, List.length_cons] at hlen
        omega
      refine ⟨?_, ?_⟩
      · have hsub : (a + BitVec.ofNat 64 pre.length - a).toNat = pre.length := by
          rw [BitVec.add_comm, BitVec.add_sub_cancel, BitVec.toNat_ofNat, Nat.mod_eq_of_lt hlt]
        rw [overlay, hsub, hbs, List.getD_eq_getElem?_getD, List.getElem?_append_right le_rfl,
          Nat.sub_self]
        rfl
      · have hnext := ih (pre ++ [b]) (by rw [hbs, List.append_assoc]; rfl)
        rw [List.length_append, List.length_singleton, add_ofNat_succ, BitVec.add_assoc,
          BitVec.add_comm 1, ← BitVec.add_assoc] at hnext
        exact hnext
  have h := hfrom bs [] rfl
  rwa [List.length_nil, BitVec.add_zero] at h

def Encodes (i : Instr) (bs : List Byte) : Prop :=
  bs.length ≤ maxLength ∧ ∀ rest, decode (bs ++ rest) = some (i, bs.length)

theorem step_of_encodes {s : State} {i : Instr} {bs : List Byte} (henc : Encodes i bs)
    (hcode : CodeAt s.mem s.rip bs) : step s = some (i, exec s bs.length i) := by
  obtain ⟨rest, hfetch⟩ := fetch_of_codeAt hcode henc.1
  rw [step, hfetch, henc.2, Option.map_some]

def Instr.isJump : Instr → Bool
  | .jmp _ => true
  | _ => false

theorem exec_mem (s : State) (len : ℕ) (i : Instr) : (exec s len i).mem = s.mem := by
  cases i <;> rfl

theorem exec_rip {i : Instr} (h : i.isJump = false) (s : State) (len : ℕ) :
    (exec s len i).rip = s.rip + BitVec.ofNat 64 len := by
  cases i
  case jmp target => cases h
  all_goals rfl

theorem runToJump_step {s : State} {i : Instr} {bs cs : List Byte} (henc : Encodes i bs)
    (hjump : i.isJump = false) (hcode : CodeAt s.mem s.rip (bs ++ cs)) (fuel : ℕ) :
    runToJump (fuel + 1) s = runToJump fuel (exec s bs.length i) ∧
      CodeAt (exec s bs.length i).mem (exec s bs.length i).rip cs := by
  obtain ⟨hbs, hcs⟩ := codeAt_append hcode
  rw [exec_mem, exec_rip hjump, runToJump, step_of_encodes henc hbs]
  cases i
  case jmp target => cases hjump
  all_goals exact ⟨rfl, hcs⟩

def execAll (s : State) : List (Instr × List Byte) → State
  | [] => s
  | p :: ps => execAll (exec s p.2.length p.1) ps

theorem runToJump_block {ps : List (Instr × List Byte)} {s : State} {target : Reg} {js : List Byte}
    (henc : ∀ p ∈ ps, Encodes p.1 p.2 ∧ p.1.isJump = false) (hjump : Encodes (.jmp target) js)
    (hcode : CodeAt s.mem s.rip (ps.flatMap Prod.snd ++ js)) :
    runToJump (ps.length + 1) s = some (exec (execAll s ps) js.length (.jmp target)) := by
  induction ps generalizing s with
  | nil =>
    rw [List.flatMap_nil, List.nil_append] at hcode
    rw [List.length_nil, runToJump, step_of_encodes hjump hcode]
    rfl
  | cons p ps ih =>
    obtain ⟨hp, hnot⟩ := henc p List.mem_cons_self
    rw [List.flatMap_cons, List.append_assoc] at hcode
    obtain ⟨hrun, hrest⟩ := runToJump_step hp hnot hcode (ps.length + 1)
    rw [List.length_cons, hrun, execAll]
    apply ih
    · exact fun q hq => henc q (List.mem_cons_of_mem p hq)
    · exact hrest

end Code

end MutantC.X86
