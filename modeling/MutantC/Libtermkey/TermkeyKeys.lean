import MutantC.Lib.CBuffer

/-! The keys of libtermkey: what a key struct holds, how a codepoint is made a key of, and its UTF-8. A
function that is given a key to fill in is told by what it stores there. -/

namespace MutantC.Libtermkey
open CBuffer

inductive TermKeyType
  | unicode | function | keysym | mouse | position | modereport | dcs | osc | unknownCsi
deriving DecidableEq

inductive TermKeyResult
  | none | key | eof | again | error
deriving DecidableEq

/-- `TermKeySym` is an `int`: besides the named symbols it holds the number of a function key, or a symbol
registered later. -/
abbrev TermKeySym := ℤ

/-- The named symbols, from `TERMKEY_SYM_NONE` on in the order of the source. -/
inductive Sym
  | none
  | backspace | tab | enter | escape
  | space | del
  | up | down | left | right | begin | find | insert | delete | select | pageup | pagedown | home | end
  | cancel | clear | close | command | copy | exit | help | mark | message | move | open | options | print
  | redo | reference | refresh | replace | restart | resume | save | suspend | undo
  | kp0 | kp1 | kp2 | kp3 | kp4 | kp5 | kp6 | kp7 | kp8 | kp9
  | kpenter | kpplus | kpminus | kpmult | kpdiv | kpcomma | kpperiod | kpequals
deriving DecidableEq

def Sym.val (s : Sym) : TermKeySym := s.ctorIdx

def symUnknown : TermKeySym := -1

def keymodShift : BitVec 32 := 1
def keymodAlt : BitVec 32 := 2
def keymodCtrl : BitVec 32 := 4

def flagNointerpret : BitVec 32 := 1
def flagConvertkp : BitVec 32 := 2
def flagUtf8 : BitVec 32 := 8
def flagNotermios : BitVec 32 := 16
def flagSpacesymbol : BitVec 32 := 32
def flagCtrlc : BitVec 32 := 64
def flagNostart : BitVec 32 := 256

def canonSpacesymbol : BitVec 32 := 1
def canonDelbs : BitVec 32 := 2

/-- `flags & flag` -/
def HasFlag (flags flag : BitVec 32) : Prop := flags &&& flag ≠ 0

instance (flags flag : BitVec 32) : Decidable (HasFlag flags flag) :=
  inferInstanceAs (Decidable (flags &&& flag ≠ 0))

structure KeyInfo where
  type : TermKeyType
  sym : TermKeySym
  modifierMask : BitVec 32
  modifierSet : BitVec 32
deriving DecidableEq

/-- The union `code` by the member stored last; `sym` and `number` are the same `int`. -/
inductive Code
  | codepoint (c : ℤ)
  | sym (n : ℤ)
  | mouse (m₀ m₁ m₂ m₃ : Byte)
deriving DecidableEq

/-- `code.sym`: the low four bytes of whatever is stored. -/
def Code.asSym : Code → TermKeySym
  | .codepoint c => (BitVec.ofInt 32 c).toInt
  | .sym n => n
  | .mouse m₀ m₁ m₂ m₃ =>
    (BitVec.ofNat 32 (m₀.toNat + 256 * (m₁.toNat + 256 * (m₂.toNat + 256 * m₃.toNat)))).toInt

structure TermKeyKey where
  type : TermKeyType
  code : Code
  modifiers : BitVec 32
  utf8 : List Byte
deriving DecidableEq

def zeroKey : TermKeyKey := ⟨.unicode, .codepoint 0, 0, List.replicate 7 0⟩

/-- `key->modifiers |= m` -/
def addModifiers (m : BitVec 32) (key : TermKeyKey) : TermKeyKey :=
  { key with modifiers := key.modifiers ||| m }

def utf8Seqlen (codepoint : ℤ) : ℕ :=
  if codepoint < 0x80 then 1
  else if codepoint < 0x800 then 2
  else if codepoint < 0x10000 then 3
  else if codepoint < 0x200000 then 4
  else if codepoint < 0x4000000 then 5
  else 6

/-- `codepoint & (m - 1)` as a byte, for a power of two `m`. -/
def lowBits (codepoint m : ℤ) : Byte := UInt8.ofNat (codepoint % m).toNat

theorem toNat_lowBits {m : ℕ} (n : ℤ) (hm : m ≤ 256) (hpos : 0 < m) :
    (lowBits n m).toNat = (n % m).toNat := by
  have hlt := Int.emod_lt_of_pos n (Int.natCast_pos.2 hpos)
  rw [lowBits, UInt8.toNat_ofNat', Nat.mod_eq_of_lt (by omega)]

/-- `code.mouse`: the bytes of whatever is stored. -/
def Code.asMouse : Code → Byte × Byte × Byte × Byte
  | .mouse m₀ m₁ m₂ m₃ => (m₀, m₁, m₂, m₃)
  | code =>
    (lowBits code.asSym 256, lowBits (code.asSym / 256) 256, lowBits (code.asSym / 65536) 256,
      lowBits (code.asSym / 16777216) 256)

/-- The continuation bytes, written backwards, and what is left of the codepoint for the first byte. -/
def utf8Tail : ℕ → ℤ → List Byte × ℤ
  | 0, codepoint => ([], codepoint)
  | n + 1, codepoint =>
    let (bytes, top) := utf8Tail n (codepoint / 64)
    (bytes ++ [0x80 + lowBits codepoint 64], top)

def utf8Lead (nbytes : ℕ) (top : ℤ) : Byte :=
  match nbytes with
  | 1 => lowBits top 128
  | 2 => 0xc0 + lowBits top 32
  | 3 => 0xe0 + lowBits top 16
  | 4 => 0xf0 + lowBits top 8
  | 5 => 0xf8 + lowBits top 4
  | _ => 0xfc + lowBits top 2

def utf8Encode (codepoint : ℤ) : List Byte :=
  let nbytes := utf8Seqlen codepoint
  let (bytes, top) := utf8Tail (nbytes - 1) codepoint
  utf8Lead nbytes top :: bytes

/-- `strcpy` of a text of at most six bytes into `key->utf8`. -/
def storeUtf8 (text : List Byte) (key : TermKeyKey) : TermKeyKey :=
  { key with utf8 := text ++ 0 :: key.utf8.drop (text.length + 1) }

def fillUtf8 (key : TermKeyKey) : TermKeyKey :=
  match key.code with
  | .codepoint codepoint => storeUtf8 (utf8Encode codepoint) key
  | _ => key

def utf8Invalid : ℤ := 0xFFFD

/-- What `parse_utf8` returns and stores: a codepoint with the number of its bytes, or the part of one
that there is so far. -/
inductive Utf8Parse
  | again (cp : ℤ)
  | key (cp : ℤ) (nbytes : ℕ)
deriving DecidableEq

/-- The checks behind the last byte of a sequence. -/
def checkedCodepoint (nbytes : ℕ) (cp : ℤ) : ℤ :=
  let cp := if utf8Seqlen cp < nbytes then utf8Invalid else cp
  if (0xD800 ≤ cp ∧ cp ≤ 0xDFFF) ∨ cp = 0xFFFE ∨ cp = 0xFFFF then utf8Invalid else cp

/-- The loop over the continuation bytes, `left` of which are still to come. -/
def parseContinuation (nbytes : ℕ) : ℕ → ℤ → List Byte → Utf8Parse
  | 0, cp, _ => .key (checkedCodepoint nbytes cp) nbytes
  | _ + 1, cp, [] => .again cp
  | left + 1, cp, cb :: rest =>
    if cb < 0x80 ∨ 0xc0 ≤ cb then .key utf8Invalid (nbytes - (left + 1))
    else parseContinuation nbytes left (cp * 64 + (cb.toNat % 64 : ℕ)) rest

/-- The bytes are `b0`, which is always read, and those of `rest`. -/
def parseUtf8 (b0 : Byte) (rest : List Byte) : Utf8Parse :=
  if b0 < 0x80 then .key b0.toNat 1
  else if b0 < 0xc0 then .key utf8Invalid 1
  else if b0 < 0xe0 then parseContinuation 2 1 (b0.toNat % 32 : ℕ) rest
  else if b0 < 0xf0 then parseContinuation 3 2 (b0.toNat % 16 : ℕ) rest
  else if b0 < 0xf8 then parseContinuation 4 3 (b0.toNat % 8 : ℕ) rest
  else if b0 < 0xfc then parseContinuation 5 4 (b0.toNat % 4 : ℕ) rest
  else if b0 < 0xfe then parseContinuation 6 5 (b0.toNat % 2 : ℕ) rest
  else .key utf8Invalid 1

def termkeyCanonicalise (canonflags : BitVec 32) (key : TermKeyKey) : TermKeyKey :=
  let key :=
    if HasFlag canonflags canonSpacesymbol then
      if key.type = .unicode ∧ key.code = .codepoint 0x20 then
        { key with type := .keysym, code := .sym Sym.space.val }
      else key
    else if key.type = .keysym ∧ key.code = .sym Sym.space.val then
      fillUtf8 { key with type := .unicode, code := .codepoint 0x20 }
    else key
  if HasFlag canonflags canonDelbs ∧ key.type = .keysym ∧ key.code = .sym Sym.del.val then
    { key with code := .sym Sym.backspace.val }
  else key

/-- What of a TermKey says how bytes are read, apart from the drivers. -/
structure Interpretation where
  flags : BitVec 32
  canonflags : BitVec 32
  isClosed : Bool
  /-- One entry for each C0 code. -/
  c0 : ℕ → KeyInfo

/-- The entry for a C0 code; `none` is a codepoint below zero, which reads in front of the table. -/
def c0Entry (s : Interpretation) (codepoint : ℤ) : Option KeyInfo :=
  if HasFlag s.flags flagNointerpret then some ⟨.unicode, Sym.none.val, 0, 0⟩
  else if codepoint < 0 then none
  else some (s.c0 codepoint.toNat)

/-- Type, code and modifiers of a C0 code. An entry with `TERMKEY_SYM_UNKNOWN` leaves the zero that was
stored before. -/
def c0Key (codepoint : ℤ) (info : KeyInfo) : TermKeyType × Code × BitVec 32 :=
  if info.sym = symUnknown ∨ info.sym = Sym.none.val then
    -- a lower case letter
    if 65 ≤ codepoint + 0x40 ∧ codepoint + 0x40 ≤ 90 then (.unicode, .codepoint (codepoint + 0x60), keymodCtrl)
    else (.unicode, .codepoint (codepoint + 0x40), keymodCtrl)
  else (.keysym, .sym info.sym, info.modifierSet)

/-- The branches of `emit_codepoint`: type, code and modifiers. -/
def codepointKey (s : Interpretation) (codepoint : ℤ) : Option (TermKeyType × Code × BitVec 32) :=
  if codepoint = 0 then some (.keysym, .sym Sym.space.val, keymodCtrl)
  else if codepoint < 0x20 then (c0Entry s codepoint).map (c0Key codepoint)
  else if codepoint = 0x7f ∧ ¬ HasFlag s.flags flagNointerpret then some (.keysym, .sym Sym.del.val, 0)
  else if codepoint < 0x80 then some (.unicode, .codepoint codepoint, 0)
  else if codepoint < 0xa0 then some (.unicode, .codepoint (codepoint - 0x40), keymodCtrl ||| keymodAlt)
  else some (.unicode, .codepoint codepoint, 0)

def fillUnicode (key : TermKeyKey) : TermKeyKey := if key.type = .unicode then fillUtf8 key else key

def emitCodepoint (s : Interpretation) (codepoint : ℤ) : Option (TermKeyKey → TermKeyKey) :=
  (codepointKey s codepoint).map fun (type, code, modifiers) key =>
    fillUnicode (termkeyCanonicalise s.canonflags { key with type, code, modifiers })

theorem codepointKey_isSome (s : Interpretation) {codepoint : ℤ} (h : 0 ≤ codepoint) :
    ∃ found, codepointKey s codepoint = some found := by
  unfold codepointKey c0Entry
  rw [if_neg (not_lt.2 h)]
  split_ifs
  all_goals exact ⟨_, rfl⟩

theorem emitCodepoint_isSome (s : Interpretation) {codepoint : ℤ} (h : 0 ≤ codepoint) :
    ∃ emit, emitCodepoint s codepoint = some emit := by
  obtain ⟨found, hfound⟩ := codepointKey_isSome s h
  exact ⟨_, by rw [emitCodepoint, hfound]; rfl⟩

theorem parseContinuation_again_nonneg {nbytes left : ℕ} {cp cp' : ℤ} {rest : List Byte} (hcp : 0 ≤ cp)
    (h : parseContinuation nbytes left cp rest = .again cp') : 0 ≤ cp' := by
  induction left generalizing cp rest with
  | zero => cases h
  | succ left ih =>
    cases rest with
    | nil =>
      cases h
      exact hcp
    | cons cb rest =>
      rw [parseContinuation] at h
      split_ifs at h
      exact ih (by omega) h

theorem parseUtf8_again_nonneg {b0 : Byte} {rest : List Byte} {cp : ℤ} (h : parseUtf8 b0 rest = .again cp) :
    0 ≤ cp := by
  unfold parseUtf8 at h
  split_ifs at h
  all_goals exact parseContinuation_again_nonneg (by omega) h

end MutantC.Libtermkey
