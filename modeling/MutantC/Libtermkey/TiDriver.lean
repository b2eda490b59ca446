import MutantC.Lib.Iteration
import MutantC.Lib.Scan
import MutantC.Lib.Trie
import MutantC.Libtermkey.CsiDriver

/-! The terminfo driver: its trie of key sequences, and what it makes of the bytes at the front of the
buffer. `none` is a call of `abort`, an access through NULL or a loop that does not end. -/

namespace MutantC.Libtermkey
open CBuffer Decimal Iteration Scan Tries

inductive TrieLeaf
  | key (info : KeyInfo)
  | mouse
deriving DecidableEq

abbrev TrieNode := Trie TrieLeaf

def newNodeArr (min max : Byte) : TrieNode := .arr min max fun _ => .null

def lookupNext (n : TrieNode) (b : Byte) : Option TrieNode :=
  match n with
  | .arr _ _ _ => some (n.child b)
  | _ => none

/-- `nar->arr[b - nar->min] = next` -/
def setNext (n : TrieNode) (b : Byte) (next : TrieNode) : Option TrieNode :=
  match n with
  | .arr min max kids =>
    if b < min ∨ max < b then none
    else some (.arr min max fun i => if i = b.toNat - min.toNat then next else kids i)
  | _ => none

/-- The new nodes below the place where the sequence leaves the trie. -/
def newPath : List Byte → TrieNode → Option TrieNode
  | [], node => some node
  | b :: seq, node => do
    let next ← newPath seq node
    setNext (newNodeArr 0 0xff) b next

/-- `insert_seq`: down along the nodes that are there, then along new ones; a sequence that ends at a node
that is there changes nothing. -/
def insertSeq (p : TrieNode) : List Byte → TrieNode → Option TrieNode
  | [], _ => some p
  | b :: seq, node => do
    let next ← lookupNext p b
    let next ← match next with
      | .null => newPath seq node
      | next => insertSeq next seq node
    setNext p b next

def findChild (kids : ℕ → TrieNode) : ℕ → ℕ → Option ℕ
  | _, 0 => none
  | i, n + 1 =>
    match kids i with
    | .null => findChild kids (i + 1) n
    | _ => some i

def findLastChild (kids : ℕ → TrieNode) : ℕ → Option ℕ
  | 0 => none
  | n + 1 =>
    match kids n with
    | .null => findLastChild kids n
    | _ => some n

/-- `compress_trie`: nodes with just the extent that they need. The search for its ends wraps around for
ever in a node without children. -/
def compressTrie : TrieNode → Option TrieNode
  | .arr _ _ kids =>
    match findChild kids 0 256, findLastChild kids 256 with
    | some min, some max =>
      if ∀ i ∈ List.range 256, (compressTrie (kids i)).isSome then
        some (.arr (UInt8.ofNat min) (UInt8.ofNat max) fun i =>
          if i ≤ max - min then (compressTrie (kids (min + i))).getD .null else .null)
      else none
    | _, _ => none
  | n => some n

section Terminfo

def strcmp : List Byte → List Byte → Ordering
  | [], [] => .eq
  | [], _ :: _ => .lt
  | _ :: _, [] => .gt
  | a :: as, b :: bs => if a = b then strcmp as bs else if a < b then .lt else .gt

/-- The table `funcs` of the source, without the entry with NULL that ends it: name, symbol and modifiers. -/
def funcs : List (String × Sym × BitVec 32) :=
  [("backspace", .backspace, 0), ("begin", .begin, 0), ("beg", .begin, 0), ("btab", .tab, keymodShift),
    ("cancel", .cancel, 0), ("clear", .clear, 0), ("close", .close, 0), ("command", .command, 0),
    ("copy", .copy, 0), ("dc", .delete, 0), ("down", .down, 0), ("end", .end, 0), ("enter", .enter, 0),
    ("exit", .exit, 0), ("find", .find, 0), ("help", .help, 0), ("home", .home, 0), ("ic", .insert, 0),
    ("left", .left, 0), ("mark", .mark, 0), ("message", .message, 0), ("mouse", .none, 0),
    ("move", .move, 0), ("next", .pagedown, 0), ("npage", .pagedown, 0), ("open", .open, 0),
    ("options", .options, 0), ("ppage", .pageup, 0), ("previous", .pageup, 0), ("print", .print, 0),
    ("redo", .redo, 0), ("reference", .reference, 0), ("refresh", .refresh, 0), ("replace", .replace, 0),
    ("restart", .restart, 0), ("resume", .resume, 0), ("right", .right, 0), ("save", .save, 0),
    ("select", .select, 0), ("suspend", .suspend, 0), ("undo", .undo, 0), ("up", .up, 0)]

/-- The binary search between `start` and `end`: an entry, or that there is none. The entry with NULL lies in
its range, and comparing with it is a failure. -/
def searchFuncs (funcname : List Byte) : ℕ → ℕ → ℕ → Option (Option (Sym × BitVec 32))
  | 0, _, _ => none
  | fuel + 1, start, stop => do
    let i := (start + stop) / 2
    let (name, found) ← funcs[i]?
    match strcmp funcname (bytesOf name) with
    | .eq => some (some found)
    | .gt => if stop = start + 1 then some none else searchFuncs funcname fuel i stop
    | .lt => if stop = start + 1 then some none else searchFuncs funcname fuel start i

/-- `funcname2keysym`; the caller's modifiers are zero where nothing is stored in them. -/
def funcname2keysym : List Byte → Option (Option KeyInfo)
  | [] => (searchFuncs [] funcs.length 0 (funcs.length + 1)).map fun found =>
    found.map fun (sym, mods) => ⟨.keysym, sym.val, mods, mods⟩
  | c :: rest => do
    match ← searchFuncs (c :: rest) funcs.length 0 (funcs.length + 1) with
    | some (sym, mods) => some (some ⟨.keysym, sym.val, mods, mods⟩)
    | none =>
      let digits := rest.takeWhile fun b => IsDigit b
      if c = ascii 'f' ∧ digits ≠ [] then some (some ⟨.function, toInt (strtol false digits), 0, 0⟩)
      else if c = ascii 's' then
        (funcname2keysym rest).map fun found => found.map fun info =>
          { info with
            modifierMask := info.modifierMask ||| keymodShift
            modifierSet := info.modifierSet ||| keymodShift }
      else some none

/-- The node for a name that stands behind `key_`, if the name has one. -/
def keyNode (funcname : List Byte) : Option (Option TrieLeaf) :=
  if funcname = bytesOf "mouse" then some (some .mouse)
  else (funcname2keysym funcname).map fun found =>
    (found.filter fun info => info.sym ≠ Sym.none.val).map TrieLeaf.key

/-- One round of the loop of `load_terminfo`: the name of a string and its value in the database, if it has
one there. -/
def loadString (root : TrieNode) : List Byte × Option (List Byte) → Option TrieNode
  | (name, some value) =>
    if bytesOf "key_" <+: name then do
      match ← keyNode (name.drop 4) with
      | some leaf => insertSeq root value (.leaf leaf)
      | none => some root
    else some root
  | (_, none) => some root

def loadTerminfo (strings : List (List Byte × Option (List Byte))) : Option TrieNode :=
  (run loadString (newNodeArr 0 0xff) strings).bind compressTrie

end Terminfo

/-- The loop of `peekkey` from the node `p` on, with `pos` bytes behind it and `w` in front. -/
def tiWalk (csi : TermKeyCsi) (force : Bool) : TrieNode → ℕ → List Byte → Option Reply
  | _, _, [] => some (.undecided (if force then .none else .again) id csi)
  | p, pos, b :: w => do
    let next ← lookupNext p b
    match next with
    | .null => some (.undecided .none id csi)
    | .leaf (.key info) => some (.found (info.store 0) (pos + 1) csi)
    | .leaf .mouse => some (peekkeyMouse csi w (pos + 1))
    | next => tiWalk csi force next (pos + 1) w

def tiPeekkey (s : Interpretation) (csi : TermKeyCsi) (root : TrieNode) (w : List Byte) (force : Bool) :
    Option Reply :=
  match w with
  | [] => some (.empty s csi)
  | w => tiWalk csi force root 0 w

end MutantC.Libtermkey
