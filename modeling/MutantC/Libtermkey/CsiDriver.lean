import MutantC.Libtermkey.TermkeyKeys

/-! The CSI driver: the tables of its keys, the handlers of CSI sequences, and what it makes of the bytes at
the front of the buffer. `none` is a read or a write outside of an array, or a read of an argument that was
not given. -/

namespace MutantC.Libtermkey
open CBuffer

def ascii (c : Char) : Byte := UInt8.ofNat c.toNat

def bytesOf (s : String) : List Byte := s.toList.map ascii

def toLong (n : ℤ) : ℤ := n.bmod (2 ^ 64)

def toInt (n : ℤ) : ℤ := n.bmod (2 ^ 32)

/-- `char` from an `int`, kept as the byte it is. -/
def toChar (n : ℤ) : Byte := lowBits n 256

section Tables

def keyinfoUnknown : KeyInfo := ⟨.unicode, symUnknown, 0, 0⟩

def symInfo (s : Sym) : KeyInfo := ⟨.keysym, s.val, 0, 0⟩

def functionInfo (number : ℤ) : KeyInfo := ⟨.function, number, 0, 0⟩

/-- What `register_csi_ss3` and `register_csi_ss3_full` were called with. -/
def csiSs3Keys : List (Byte × KeyInfo) :=
  [(ascii 'A', symInfo .up), (ascii 'B', symInfo .down), (ascii 'C', symInfo .right),
    (ascii 'D', symInfo .left), (ascii 'E', symInfo .begin), (ascii 'F', symInfo .end),
    (ascii 'H', symInfo .home), (ascii 'P', functionInfo 1), (ascii 'Q', functionInfo 2),
    (ascii 'R', functionInfo 3), (ascii 'S', functionInfo 4),
    (ascii 'Z', ⟨.keysym, Sym.tab.val, keymodShift, keymodShift⟩)]

/-- What `register_ss3kpalt` was called with; a zero is no alternative. -/
def ss3Keys : List (Byte × KeyInfo × Byte) :=
  [(ascii 'M', symInfo .kpenter, 0), (ascii 'X', symInfo .kpequals, ascii '='),
    (ascii 'j', symInfo .kpmult, ascii '*'), (ascii 'k', symInfo .kpplus, ascii '+'),
    (ascii 'l', symInfo .kpcomma, ascii ','), (ascii 'm', symInfo .kpminus, ascii '-'),
    (ascii 'n', symInfo .kpperiod, ascii '.'), (ascii 'o', symInfo .kpdiv, ascii '/'),
    (ascii 'p', symInfo .kp0, ascii '0'), (ascii 'q', symInfo .kp1, ascii '1'),
    (ascii 'r', symInfo .kp2, ascii '2'), (ascii 's', symInfo .kp3, ascii '3'),
    (ascii 't', symInfo .kp4, ascii '4'), (ascii 'u', symInfo .kp5, ascii '5'),
    (ascii 'v', symInfo .kp6, ascii '6'), (ascii 'w', symInfo .kp7, ascii '7'),
    (ascii 'x', symInfo .kp8, ascii '8'), (ascii 'y', symInfo .kp9, ascii '9')]

/-- What `register_csifunc` was called with. -/
def csifuncKeys : List (ℕ × KeyInfo) :=
  [(1, symInfo .find), (2, symInfo .insert), (3, symInfo .delete), (4, symInfo .select),
    (5, symInfo .pageup), (6, symInfo .pagedown), (7, symInfo .home), (8, symInfo .end),
    (11, functionInfo 1), (12, functionInfo 2), (13, functionInfo 3), (14, functionInfo 4),
    (15, functionInfo 5), (17, functionInfo 6), (18, functionInfo 7), (19, functionInfo 8),
    (20, functionInfo 9), (21, functionInfo 10), (23, functionInfo 11), (24, functionInfo 12),
    (25, functionInfo 13), (26, functionInfo 14), (28, functionInfo 15), (29, functionInfo 16),
    (31, functionInfo 17), (32, functionInfo 18), (33, functionInfo 19), (34, functionInfo 20)]

def csiSs3s (cmd : Byte) : KeyInfo := (csiSs3Keys.lookup cmd).getD keyinfoUnknown

def ss3s (cmd : Byte) : KeyInfo := ((ss3Keys.lookup cmd).map Prod.fst).getD keyinfoUnknown

def ss3Kpalts (cmd : Byte) : Byte := ((ss3Keys.lookup cmd).map Prod.snd).getD 0

def ncsifuncs : ℤ := 35

def csifuncs (number : ℤ) : KeyInfo := (csifuncKeys.lookup number.toNat).getD keyinfoUnknown

end Tables

/-- The command of a CSI sequence: final byte, initial byte shifted up by 8 bits and intermediate byte
shifted up by 16, zero where there is none. -/
structure CsiCmd where
  final : Byte
  initial : Byte
  intermediate : Byte
deriving DecidableEq

def CsiCmd.toNat (cmd : CsiCmd) : ℕ :=
  cmd.final.toNat + 256 * cmd.initial.toNat + 65536 * cmd.intermediate.toNat

abbrev Handled := Option (TermKeyResult × (TermKeyKey → TermKeyKey))

def argModifiers (args : List ℤ) : BitVec 32 :=
  match args[1]? with
  | some arg => if arg = -1 then 0 else BitVec.ofInt 32 (arg - 1)
  | none => 0

def KeyInfo.store (info : KeyInfo) (modifiers : BitVec 32) (key : TermKeyKey) : TermKeyKey :=
  { key with
    type := info.type
    code := .sym info.sym
    modifiers := modifiers &&& ~~~info.modifierMask ||| info.modifierSet }

def KeyInfo.result (info : KeyInfo) : TermKeyResult := if info.sym = symUnknown then .none else .key

def handleCsiSs3Full (cmd : CsiCmd) (args : List ℤ) : Handled :=
  -- the table is indexed with the whole command
  if cmd.initial ≠ 0 ∨ cmd.intermediate ≠ 0 then none
  else
    let info := csiSs3s cmd.final
    some (info.result, info.store (argModifiers args))

def handleCsifunc (s : Interpretation) (args : List ℤ) : Handled := do
  let arg ← args[0]?
  if arg = 27 then
    let codepoint ← args[2]?
    let emit ← emitCodepoint s codepoint
    -- the symbol is read back from what has just been stored
    let sym := (emit zeroKey).code.asSym
    some (if sym = symUnknown then .none else .key, addModifiers (argModifiers args) ∘ emit)
  else if 0 ≤ arg ∧ arg < ncsifuncs then
    let info := csifuncs arg
    some (info.result, info.store (argModifiers args))
  else
    some (.none, fun key =>
      { key with type := .keysym, code := .sym symUnknown, modifiers := argModifiers args })

def handleCsiU (s : Interpretation) (cmd : CsiCmd) (args : List ℤ) : Handled :=
  if cmd = ⟨ascii 'u', 0, 0⟩ then do
    let arg ← args[0]?
    let emit ← emitCodepoint s arg
    some (.key, addModifiers (argModifiers args) ∘ emit)
  else some (.none, id)

section Linecol

/-- `termkey_key_set_linecol`, which stores the bytes 1 to 3 of `mouse`; the parts of the last one do not
overlap. -/
def termkeyKeySetLinecol (line col : ℤ) : Byte × Byte × Byte :=
  let line := if 0xfff < line then 0xfff else line
  let col := if 0x7ff < col then 0x7ff else col
  (lowBits line 256, lowBits col 256, lowBits (line / 256) 16 + 16 * lowBits (col / 256) 4)

def termkeyKeyGetLinecol (m₁ m₂ m₃ : Byte) : ℕ × ℕ :=
  (m₂.toNat + m₃.toNat / 16 % 8 * 256, m₁.toNat + m₃.toNat % 16 * 256)

end Linecol

/-- `(m & 0x1c) >> 2` -/
def mouseModifiers (m : Byte) : BitVec 32 := BitVec.ofNat 32 (m.toNat / 4 % 8)

/-- `m & ~0x1c` -/
def mouseButtons (m : Byte) : Byte := m &&& 0xe3

def handleCsiM (cmd : CsiCmd) (args : List ℤ) : Handled :=
  match args with
  | arg₀ :: arg₁ :: arg₂ :: _ =>
    let (m₁, m₂, m₃) := termkeyKeySetLinecol (toInt arg₁) (toInt arg₂)
    let store m₃ key : TermKeyKey :=
      { key with
        type := .mouse
        code := .mouse (mouseButtons (toChar arg₀)) m₁ m₂ m₃
        modifiers := mouseModifiers (toChar arg₀) }
    -- the rxvt protocol, and the SGR protocol with its release
    if cmd.initial = 0 ∧ cmd.intermediate = 0 then some (.key, store m₃)
    else if cmd.initial = ascii '<' ∧ cmd.intermediate = 0 then
      some (.key, store (if cmd.final = ascii 'm' then m₃ ||| 0x80 else m₃))
    else some (.none, id)
  | _ => some (.none, id)

def handleCsiR (cmd : CsiCmd) (args : List ℤ) : Handled :=
  if cmd = ⟨ascii 'R', ascii '?', 0⟩ then
    match args with
    | [] => some (.key, fun key => { key with type := .function, code := .sym 3 })
    | [arg₀, arg₁] =>
      let (m₁, m₂, m₃) := termkeyKeySetLinecol (toInt arg₁) (toInt arg₀)
      -- the first byte of the mouse code stays what it was
      some (.key, fun key => { key with type := .position, code := .mouse key.code.asMouse.1 m₁ m₂ m₃ })
    | _ => some (.none, id)
  else handleCsiSs3Full cmd args

def handleCsiY (cmd : CsiCmd) (args : List ℤ) : Handled :=
  if cmd = ⟨ascii 'y', 0, ascii '$'⟩ ∨ cmd = ⟨ascii 'y', ascii '?', ascii '$'⟩ then
    match args with
    | arg₀ :: arg₁ :: _ =>
      some (.key, fun key =>
        { key with
          type := .modereport
          code := .mouse cmd.initial (toChar (arg₀ / 256)) (toChar arg₀) (toChar arg₁) })
    | _ => some (.none, id)
  else some (.none, id)

inductive CsiHandler
  | ss3Full | csifunc | u | m | r | y
deriving DecidableEq

def csiHandlers (final : Byte) : Option CsiHandler :=
  if final = ascii 'u' then some .u
  else if final = ascii 'M' ∨ final = ascii 'm' then some .m
  else if final = ascii 'R' then some .r
  else if final = ascii 'y' then some .y
  else if final = ascii '~' then some .csifunc
  else if (csiSs3Keys.lookup final).isSome then some .ss3Full
  else none

def handleCsi (s : Interpretation) (cmd : CsiCmd) (args : List ℤ) : Handled :=
  match csiHandlers cmd.final with
  | none => some (.none, id)
  | some .ss3Full => handleCsiSs3Full cmd args
  | some .csifunc => handleCsifunc s args
  | some .u => handleCsiU s cmd args
  | some .m => handleCsiM cmd args
  | some .r => handleCsiR cmd args
  | some .y => handleCsiY cmd args

section Parse

def splitFinal : List Byte → Option (List Byte × Byte)
  | [] => none
  | b :: w => if 0x40 ≤ b ∧ b < 0x80 then some ([], b) else (splitFinal w).map fun (body, f) => (b :: body, f)

def argsMax : ℕ := 16

/-- A digit goes on with the argument under way, or begins one, for which the array needs a place. -/
def csiDigit (args : List ℤ) (digit : ℕ) : Option ℤ → Option ℤ
  | none => if args.length < argsMax then some digit else none
  | some arg => some (toLong (arg * 10 + digit))

/-- The loop of `parse_csi` over the bytes in front of the final one: the arguments that are finished and
the one under way. It gives the arguments and the intermediate byte. -/
def csiArgs : List Byte → List ℤ → Option ℤ → Option (List ℤ × Byte)
  | [], args, present => some (args ++ present.toList, 0)
  | c :: body, args, present =>
    if 48 ≤ c ∧ c ≤ 57 then
      (csiDigit args (c.toNat - 48) present).bind fun arg => csiArgs body args (some arg)
    else if c = 59 then
      if present = none ∧ argsMax ≤ args.length then none
      else
        let args := args ++ [present.getD (-1)]
        if 16 < args.length then some (args, 0) else csiArgs body args none
    else if 0x20 ≤ c ∧ c ≤ 0x2f then some (args ++ present.toList, c)
    else csiArgs body args present

/-- `parse_csi` behind the search for the final byte. -/
def parseCsi (body : List Byte) (final : Byte) : Option (CsiCmd × List ℤ) :=
  match body with
  | [] => some (⟨final, 0, 0⟩, [])
  | b :: rest =>
    if 0x3c ≤ b ∧ b ≤ 0x3f then
      (csiArgs rest [] none).map fun (args, intermediate) => (⟨final, b, intermediate⟩, args)
    else (csiArgs body [] none).map fun (args, intermediate) => (⟨final, 0, intermediate⟩, args)

end Parse

/-- `TermKeyCsi`: the last control string, a block with a terminator, and its number, an `int` that wraps
around. -/
structure TermKeyCsi where
  savedStringId : BitVec 32
  savedString : Option (List Byte)
deriving DecidableEq

/-- What looking at the front of the buffer gives: the result, the stores in the key, the number of bytes
for a key, and what is stored in `hightide` and in the driver, if it is. -/
structure Reply where
  res : TermKeyResult
  store : TermKeyKey → TermKeyKey
  nbytes : ℕ
  hightide : Option ℕ
  csi : TermKeyCsi

def Reply.undecided (res : TermKeyResult) (store : TermKeyKey → TermKeyKey) (csi : TermKeyCsi) : Reply :=
  ⟨res, store, 0, none, csi⟩

def Reply.empty (s : Interpretation) (csi : TermKeyCsi) : Reply :=
  .undecided (if s.isClosed then .eof else .none) id csi

def Reply.found (store : TermKeyKey → TermKeyKey) (nbytes : ℕ) (csi : TermKeyCsi) : Reply :=
  ⟨.key, store, nbytes, none, csi⟩

/-- `w` are the bytes from `CHARAT(0)` on, and `skipped` the bytes in front of them. -/
def peekkeyMouse (csi : TermKeyCsi) (w : List Byte) (skipped : ℕ) : Reply :=
  match w with
  | c₀ :: c₁ :: c₂ :: _ =>
    .found (fun key =>
      { key with
        type := .mouse
        code := .mouse (mouseButtons (c₀ - 0x20)) (c₁ - 0x20) (c₂ - 0x20) 0
        modifiers := mouseModifiers (c₀ - 0x20) }) (3 + skipped) csi
  | _ => .undecided .again id csi

/-- A handled sequence of `introlen` and `len` more bytes. What no handler knows is left in the buffer
behind its introducer, for `termkey_interpret_csi`. -/
def csiReply (csi : TermKeyCsi) (introlen len : ℕ) (cmd : CsiCmd)
    (handled : TermKeyResult × (TermKeyKey → TermKeyKey)) : Reply :=
  if handled.1 = .none then
    { res := .key
      store := fun key => { handled.2 key with type := .unknownCsi, code := .sym (toInt cmd.toNat) }
      nbytes := introlen
      hightide := some len
      csi }
  else ⟨handled.1, handled.2, introlen + len, none, csi⟩

def peekkeyCsi (s : Interpretation) (csi : TermKeyCsi) (w : List Byte) (introlen : ℕ) (force : Bool) :
    Option Reply :=
  match splitFinal (w.drop introlen) with
  | none =>
    if force then
      (emitCodepoint s (ascii '[').toNat).map fun emit => .found (addModifiers keymodAlt ∘ emit) introlen csi
    else some (.undecided .again id csi)
  | some (body, final) => do
    let (cmd, args) ← parseCsi body final
    let len := body.length + 1
    -- a mouse in X10 encoding takes the next three bytes too
    if cmd = ⟨ascii 'M', 0, 0⟩ ∧ args.length < 3 then
      some (peekkeyMouse csi (w.drop (introlen + len)) (introlen + len))
    else
      let handled ← handleCsi s cmd args
      some (csiReply csi introlen len cmd handled)

def peekkeySs3 (s : Interpretation) (csi : TermKeyCsi) (w : List Byte) (introlen : ℕ) (force : Bool) :
    Option Reply :=
  match w[introlen]? with
  | none =>
    if force then
      (emitCodepoint s (ascii 'O').toNat).map fun emit => .found (addModifiers keymodAlt ∘ emit) w.length csi
    else some (.undecided .again id csi)
  | some cmd =>
    if cmd < 0x40 ∨ 0x80 ≤ cmd then some (.undecided .none id csi)
    else if (csiSs3s cmd).sym ≠ symUnknown then
      some (.found ((csiSs3s cmd).store 0) (introlen + 1) csi)
    else if HasFlag s.flags flagConvertkp ∧ ss3Kpalts cmd ≠ 0 then
      some (.found (fun key =>
        storeUtf8 [ss3Kpalts cmd]
          { key with type := .unicode, code := .codepoint (ss3Kpalts cmd).toNat, modifiers := 0 })
        (introlen + 1) csi)
    else if (ss3s cmd).sym ≠ symUnknown then some (.found ((ss3s cmd).store 0) (introlen + 1) csi)
    else some (.undecided .none ((ss3s cmd).store 0) csi)

def splitString : List Byte → Option (List Byte × ℕ)
  | [] => none
  | b :: w =>
    if b = 0x9c then some ([], 1)
    else if b = 0x1b ∧ w.head? = some 0x5c then some ([], 2)
    else (splitString w).map fun (text, n) => (b :: text, n)

/-- `strncpy` of a control string, behind which a terminator is stored. -/
def savedBlock (text : List Byte) : List Byte :=
  let copied := text.takeWhile (· ≠ 0)
  copied ++ List.replicate (text.length - copied.length) 0 ++ [0]

def peekkeyCtrlstring (csi : TermKeyCsi) (w : List Byte) (introlen : ℕ) : Option Reply :=
  match splitString (w.drop introlen) with
  | none => some (.undecided .again id csi)
  | some (text, terminator) => do
    let intro ← w[introlen - 1]?
    let id := csi.savedStringId + 1
    let type : TermKeyType := if intro.toNat % 32 = 0x10 then .dcs else .osc
    some (.found (fun key => { key with type, code := .sym id.toInt, modifiers := 0 })
      (introlen + text.length + terminator) ⟨id, some (savedBlock text)⟩)

def csiPeekkey (s : Interpretation) (csi : TermKeyCsi) (w : List Byte) (force : Bool) : Option Reply :=
  match w with
  | [] => some (.empty s csi)
  | b0 :: rest =>
    if b0 = 0x1b then
      match rest with
      | [] => some (.undecided .none id csi)
      | b1 :: _ =>
        if b1 = 0x4f then peekkeySs3 s csi w 2 force
        else if b1 = 0x50 ∨ b1 = 0x5d then peekkeyCtrlstring csi w 2
        else if b1 = 0x5b then peekkeyCsi s csi w 2 force
        else some (.undecided .none id csi)
    else if b0 = 0x8f then peekkeySs3 s csi w 1 force
    else if b0 = 0x90 ∨ b0 = 0x9d then peekkeyCtrlstring csi w 1
    else if b0 = 0x9b then peekkeyCsi s csi w 1 force
    else some (.undecided .none id csi)

end MutantC.Libtermkey
