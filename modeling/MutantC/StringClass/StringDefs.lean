import MutantC.Librope.RopeDefs

/-! The string class: its methods on the rope of one object, and the runs of its editing methods. -/

namespace MutantC.StringClass
open CBuffer Iteration Librope

structure CString where
  bytes : List Byte
  zero_notMem : 0 ∉ bytes
deriving DecidableEq

def CString.Valid (s : CString) : Prop := bytelenAndCheckUtf8 s.bytes ≠ none

instance : DecidablePred CString.Valid := fun s =>
  inferInstanceAs (Decidable (bytelenAndCheckUtf8 s.bytes ≠ none))

def stringClassGetLength (r : Rope) : ℕ := ropeCharCount r

/-- What `printf("%s", rope_node_data(n))` writes: the block is followed by the two bytes of
`num_bytes`, the high one zero, so the string ends there at the latest. -/
def printNode (n : RopeNode) : Option (List Byte) :=
  cstr (ropeNodeData n ++ [UInt8.ofNat (n.numBytes % 256), UInt8.ofNat (n.numBytes / 256)])

def stringClassPrint (r : Rope) : Option (List Byte) := do
  let nodes ← ropeForeach r
  let written ← nodes.mapM printNode
  some written.flatten

section
variable (env : Env)

def stringClassInsertCstrAt (r : Rope) (pos : ℕ) (s : CString) : Option Rope :=
  (ropeInsert env r pos s.bytes).map Prod.snd

def stringClassAppendCstr (r : Rope) (s : CString) : Option Rope :=
  (ropeInsert env r (ropeCharCount r) s.bytes).map Prod.snd

def stringClassSet (r : Rope) (s : CString) : Option Rope := do
  let ccount := ropeCharCount r
  let r ← ropeDel r 0 ccount
  (ropeInsert env r 0 s.bytes).map Prod.snd

/-- What `string_class_destroy` does to the rope, which is there from `string_class_init` on. -/
def stringClassDestroy (r : Rope) : Option Rope := ropeFree r

inductive Call
  | set (s : CString)
  | insertCstrAt (pos : ℕ) (s : CString)
  | appendCstr (s : CString)
deriving DecidableEq

def call (r : Rope) : Call → Option Rope
  | .set s => stringClassSet env r s
  | .insertCstrAt pos s => stringClassInsertCstrAt env r pos s
  | .appendCstr s => stringClassAppendCstr env r s

/-- The rope of an object after `string_class_init` and the given calls. -/
def stringRun (calls : List Call) : Option Rope := run (call env) (ropeNew2 env) calls

end

/-- `GC_MALLOC` hands out zero-filled blocks. -/
def gcEnv (rand : ℕ → ℕ) : Env where
  rand := rand
  junk _ := ⟨List.replicate ropeNodeStrSize 0, 0, 0⟩
  junkNexts _ _ := ⟨0, none⟩
  length_junk _ := List.length_replicate

/-- The string as a plain list of characters: `set` replaces it, the other calls splice into it, and
a string that is no UTF-8 changes nothing. -/
def editText (txt : List Utf8Char) : Call → List Utf8Char
  | .set s => (decodeUtf8 s.bytes).getD txt
  | .insertCstrAt pos s =>
    match decodeUtf8 s.bytes with
    | some cs => txt.take (min pos txt.length) ++ cs ++ txt.drop (min pos txt.length)
    | none => txt
  | .appendCstr s =>
    match decodeUtf8 s.bytes with
    | some cs => txt ++ cs
    | none => txt

def textOf (calls : List Call) : List Utf8Char := calls.foldl editText []

end MutantC.StringClass
