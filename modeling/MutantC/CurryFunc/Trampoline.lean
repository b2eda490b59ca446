import MutantC.Lib.X86

/-! The trampoline of `curry_func`: its bytes with the parameter and the function patched in, and what
a call through it does. -/

namespace MutantC.CurryFunc
open CBuffer X86

def curryTramp : List Byte :=
  [0x4d, 0x89, 0xc1,
   0xf9, 0x89, 0xc8,
   0x48, 0x89, 0xd1,
   0x48, 0x89, 0xf2,
   0x48, 0x89, 0xfe,
   0x48, 0xbf,
   0xef, 0xbe, 0xad, 0xde, 0xce, 0xfa, 0xed, 0xfe,
   0x48, 0xb8,
   0xef, 0xbe, 0xad, 0xde, 0xce, 0xfa, 0xed, 0xfe,
   0xff, 0xe0]

def curryTrampParamOffset : ℕ := 17
def curryTrampFuncptrOffset : ℕ := 27

/-- The bytes `curry_func` leaves in its block: the code with both pointers stored, low byte first. -/
def curryFuncCode (func param : Word) : Option (List Byte) := do
  let code ← writeAt curryTramp curryTrampParamOffset (leBytes 8 param.toNat)
  writeAt code curryTrampFuncptrOffset (leBytes 8 func.toNat)

def called (code : List Byte) (addr : Word) (regs : Reg → Word) (carry : Bool) (mem : Memory) : State :=
  ⟨regs, carry, addr, overlay mem addr code⟩

def preserved : List Reg := [.rsp, .rbx, .rbp, .r12, .r13, .r14, .r15]

/-- The call ends in a jump to `func` with `param` in front of its arguments, and the stack and the
registers of the caller as they were. -/
def CallsWith (func param : Word) (s : State) : Prop :=
  ∃ fuel s', runToJump fuel s = some s' ∧ s'.rip = func ∧ s'.regs .rdi = param ∧
    s'.regs .rsi = s.regs .rdi ∧ s'.regs .rdx = s.regs .rsi ∧ s'.regs .rcx = s.regs .rdx ∧
    s'.regs .r8 = s.regs .rcx ∧ s'.regs .r9 = s.regs .r8 ∧
    (∀ r ∈ preserved, s'.regs r = s.regs r) ∧ s'.mem = s.mem

/-- The instructions the bytes stand for. The byte `f9` is an instruction of its own, and what
follows it moves `ecx` into `eax`. -/
def trampolineBlock (param func : Word) : List (Instr × List Byte) :=
  [(.mov64 .r9 .r8, [0x4d, 0x89, 0xc1]),
   (.stc, [0xf9]),
   (.mov32 .rax .rcx, [0x89, 0xc8]),
   (.mov64 .rcx .rdx, [0x48, 0x89, 0xd1]),
   (.mov64 .rdx .rsi, [0x48, 0x89, 0xf2]),
   (.mov64 .rsi .rdi, [0x48, 0x89, 0xfe]),
   (.movImm64 .rdi param, 0x48 :: 0xbf :: leBytes 8 param.toNat),
   (.movImm64 .rax func, 0x48 :: 0xb8 :: leBytes 8 func.toNat)]

theorem curryFuncCode_eq (func param : Word) :
    curryFuncCode func param = some ((trampolineBlock param func).flatMap Prod.snd ++ [0xff, 0xe0]) := by
  have hparam : writeAt curryTramp curryTrampParamOffset (leBytes 8 param.toNat) =
      some (curryTramp.take 17 ++ leBytes 8 param.toNat ++ curryTramp.drop 25) :=
    writeAt_append (p := curryTramp.take 17) (m := (curryTramp.drop 17).take 8) (q := curryTramp.drop 25)
      (by rw [length_leBytes]; rfl)
  have hsplit : curryTramp.take 17 ++ leBytes 8 param.toNat ++ curryTramp.drop 25 =
      curryTramp.take 17 ++ leBytes 8 param.toNat ++ [0x48, 0xb8] ++ (curryTramp.drop 27).take 8 ++
        [0xff, 0xe0] := by
    simp only [List.append_assoc]
    rfl
  have hoffset : curryTrampFuncptrOffset =
      (curryTramp.take 17 ++ leBytes 8 param.toNat ++ [0x48, 0xb8]).length := by
    simp only [List.length_append, length_leBytes]
    rfl
  rw [curryFuncCode, hparam, Option.bind_eq_bind, Option.bind_some, hsplit, hoffset,
    writeAt_append (by rw [length_leBytes]; rfl)]
  simp [curryTramp, trampolineBlock]

theorem encodes_movImm64 {dst : Reg} {op : Byte} (v : Word)
    (hop : ∀ bs, 8 ≤ bs.length → decode (0x48 :: op :: bs) =
      some (.movImm64 dst (BitVec.ofNat 64 (leValue (bs.take 8))), 10)) :
    Encodes (.movImm64 dst v) (0x48 :: op :: leBytes 8 v.toNat) := by
  refine ⟨by simp [maxLength], fun rest => ?_⟩
  have htake : (leBytes 8 v.toNat ++ rest).take 8 = leBytes 8 v.toNat := List.take_left' (length_leBytes 8 _)
  rw [List.cons_append, List.cons_append, hop _ (by simp), htake, ofNat_leValue_leBytes]
  simp

theorem decode_movabs {dst : Reg} {op : Byte} (hop : op ≠ 0x89) (hmov : op &&& 0xf8 = 0xb8)
    (hdst : Reg.ofCode false op = dst) {bs : List Byte} (hlen : 8 ≤ bs.length) :
    decode (0x48 :: op :: bs) = some (.movImm64 dst (BitVec.ofNat 64 (leValue (bs.take 8))), 10) := by
  have hrex : Rex.ofByte 0x48 = ⟨true, false, false⟩ := by decide
  rw [decode, if_pos (by decide), hrex, decodeOp, if_neg hop, if_pos hmov, decodeMovImm, if_pos rfl,
    if_pos hlen, hdst, Option.map_some]

theorem encodes_trampolineBlock (param func : Word) :
    ∀ p ∈ trampolineBlock param func, Encodes p.1 p.2 ∧ p.1.isJump = false := by
  simp only [trampolineBlock, List.forall_mem_cons]
  refine ⟨⟨⟨by decide, fun rest => rfl⟩, rfl⟩, ⟨⟨by decide, fun rest => rfl⟩, rfl⟩,
    ⟨⟨by decide, fun rest => rfl⟩, rfl⟩, ⟨⟨by decide, fun rest => rfl⟩, rfl⟩,
    ⟨⟨by decide, fun rest => rfl⟩, rfl⟩, ⟨⟨by decide, fun rest => rfl⟩, rfl⟩,
    ⟨encodes_movImm64 param fun bs => decode_movabs (by decide) (by decide) rfl, rfl⟩,
    ⟨encodes_movImm64 func fun bs => decode_movabs (by decide) (by decide) rfl, rfl⟩, by simp⟩

def atJump (func param : Word) (regs : Reg → Word) : Reg → Word
  | .rax => func
  | .rdi => param
  | .rsi => regs .rdi
  | .rdx => regs .rsi
  | .rcx => regs .rdx
  | .r9 => regs .r8
  | r => regs r

theorem trampoline_runs (func param addr : Word) (regs : Reg → Word) (carry : Bool) (mem : Memory) :
    ∃ code, curryFuncCode func param = some code ∧
      runToJump 9 (called code addr regs carry mem) =
        some ⟨atJump func param regs, true, func, overlay mem addr code⟩ := by
  have hjump : Encodes (.jmp .rax) [0xff, 0xe0] := ⟨by decide, fun rest => rfl⟩
  have hlen : ((trampolineBlock param func).flatMap Prod.snd ++ [0xff, 0xe0]).length ≤ 2 ^ 64 := by
    simp [trampolineBlock]
  have hcode := codeAt_overlay mem addr hlen
  refine ⟨_, curryFuncCode_eq func param, ?_⟩
  rw [show 9 = (trampolineBlock param func).length + 1 from rfl,
    runToJump_block (encodes_trampolineBlock param func) hjump hcode, Option.some.injEq]
  refine State.ext ?_ rfl rfl rfl
  funext r
  cases r <;> rfl

/-- The call does what it should exactly when its fourth and fifth arguments agree: the move into
`r8` is not made. -/
theorem calls_with_iff (func param addr : Word) (regs : Reg → Word) (carry : Bool) (mem : Memory) :
    ∃ code, curryFuncCode func param = some code ∧
      (CallsWith func param (called code addr regs carry mem) ↔ regs .r8 = regs .rcx) := by
  obtain ⟨code, hcode, hrun⟩ := trampoline_runs func param addr regs carry mem
  refine ⟨code, hcode, ?_, fun h => ?_⟩
  · rintro ⟨fuel, s', hrun', -, -, -, -, -, hr8, -⟩
    obtain rfl := runToJump_unique hrun hrun'
    exact hr8
  · refine ⟨9, _, hrun, rfl, rfl, rfl, rfl, rfl, h, rfl, ?_, rfl⟩
    simp only [preserved, List.forall_mem_cons]
    exact ⟨rfl, rfl, rfl, rfl, rfl, rfl, rfl, by simp⟩

/-- A call with four and five as its fourth and fifth arguments passes five twice. -/
theorem fifth_argument_lost :
    ∃ code, curryFuncCode 0x401000 0x602010 = some code ∧
      ¬ CallsWith 0x401000 0x602010 (called code 0x7f0000001000
        (fun r => if r = .rcx then 4 else if r = .r8 then 5 else 0) false fun _ => 0) := by
  obtain ⟨code, hcode, hrun⟩ := trampoline_runs 0x401000 0x602010 0x7f0000001000
    (fun r => if r = .rcx then 4 else if r = .r8 then 5 else 0) false fun _ => 0
  refine ⟨code, hcode, ?_⟩
  rintro ⟨fuel, s', hrun', -, -, -, -, -, hr8, -⟩
  obtain rfl := runToJump_unique hrun hrun'
  have heq : (5 : Word) = 4 := hr8
  exact absurd heq (by decide)

end MutantC.CurryFunc
