/-
V12.Bytecode.Wide — wide operands, from `v12-bytecode/src/wide.rs`.

A `WideOp` is a `Wide` header word plus raw payload words. `encode` and
`tryDecode` are the two hand-written matches of the source, arm by arm;
`eachRegister`, `envAllocation` and `envAccess` are the accessors the
validator reads. `pack_hi_lo`/`unpack_hi_lo` put two 16-bit fields into
one payload word, high half first.
-/
import V12.Bytecode.Error

namespace V12.Bytecode

open Lib

/-! ## §1 The operations -/

inductive WideOp where
  | loadConstW (dst : BitVec 16) (constId : BitVec 32)
  | loadIntW (dst : BitVec 16) (value : BitVec 64)
  | getEnvSlotW (dst depth slot : BitVec 16)
  | setEnvSlotW (src depth slot : BitVec 16)
  | callW (dst func argc : BitVec 16)
  | constructW (dst func argc : BitVec 16)
  | copyObjectRestW (dst src exclBase exclCount : BitVec 16)
  | copyArrayRestW (dst src start : BitVec 16)
  | regExt (mask aHi bHi cHi : BitVec 8)
  | closureW (dst functionIndex : BitVec 16)
  | newEnvironmentW (depth slots : BitVec 16)
  | newPrivateNameW (dst kind : BitVec 16) (description : BitVec 32)
  | setPrivateMethodW (name value slot : BitVec 16)
  | definePrivateW (obj name value : BitVec 16)
  | hasPrivateW (dst obj name : BitVec 16)
  | setPropertyR (base key value receiver : BitVec 16)
  | getSuperW (dst base key receiver : BitVec 16)
  deriving DecidableEq, Repr

def packHiLo (hi lo : BitVec 16) : BitVec 32 := place 16 32 hi ||| place 0 32 lo

def unpackHiLo (word : BitVec 32) : BitVec 16 × BitVec 16 := (field 16 16 word, field 0 16 word)

namespace WideOp

/-- The `DISC_*` constants: the discriminant in the header's low byte. -/
def disc : WideOp → BitVec 32
  | .loadConstW .. => 0 | .loadIntW .. => 1 | .getEnvSlotW .. => 2 | .setEnvSlotW .. => 3
  | .callW .. => 4 | .copyObjectRestW .. => 5 | .copyArrayRestW .. => 6 | .regExt .. => 7
  | .closureW .. => 8 | .newEnvironmentW .. => 9 | .constructW .. => 10
  | .newPrivateNameW .. => 11 | .setPrivateMethodW .. => 12 | .definePrivateW .. => 13
  | .hasPrivateW .. => 14 | .setPropertyR .. => 15 | .getSuperW .. => 16

/-- `DISC_REG_EXT`, the one discriminant the interpreter tests by name. -/
def discRegExt : BitVec 32 := 7

/-! ## §2 Encoding -/

/-- The header word: slot `a` is variant-specific, `b`/`c` hold the discriminant. -/
def hdr (a : BitVec 8) (disc : BitVec 32) : Instr :=
  Instr.new .wide a (field 8 8 disc) (field 0 8 disc)

/-- `WideOp::encode`: a header word plus the documented payload words. -/
def encode (op : WideOp) : List Instr :=
  match op with
  | .loadConstW dst constId =>
    [hdr 0 op.disc, ⟨packHiLo dst (field 16 16 constId)⟩, ⟨constId &&& 0xFFFF⟩]
  | .loadIntW dst value =>
    -- two's complement, split low word first
    [hdr 0 op.disc, ⟨field 0 32 value⟩, ⟨field 32 32 value⟩, ⟨place 0 32 dst⟩]
  | .getEnvSlotW dst depth slot =>
    [hdr 0 op.disc, ⟨packHiLo dst depth⟩, ⟨place 0 32 slot⟩]
  | .setEnvSlotW src depth slot =>
    [hdr 0 op.disc, ⟨packHiLo src depth⟩, ⟨place 0 32 slot⟩]
  | .callW dst func argc => [hdr 0 op.disc, ⟨packHiLo dst func⟩, ⟨place 0 32 argc⟩]
  | .constructW dst func argc => [hdr 0 op.disc, ⟨packHiLo dst func⟩, ⟨place 0 32 argc⟩]
  | .copyObjectRestW dst src exclBase exclCount =>
    [hdr 0 op.disc, ⟨packHiLo dst src⟩, ⟨packHiLo exclBase exclCount⟩]
  | .copyArrayRestW dst src start => [hdr 0 op.disc, ⟨packHiLo dst src⟩, ⟨place 0 32 start⟩]
  | .regExt mask aHi bHi cHi =>
    [hdr mask op.disc, ⟨place 16 32 aHi ||| place 8 32 bHi ||| place 0 32 cHi⟩]
  | .closureW dst functionIndex => [hdr 0 op.disc, ⟨packHiLo dst functionIndex⟩]
  | .newEnvironmentW depth slots => [hdr 0 op.disc, ⟨packHiLo depth slots⟩]
  | .newPrivateNameW dst kind description =>
    [hdr 0 op.disc, ⟨packHiLo dst kind⟩, ⟨description⟩]
  | .setPrivateMethodW name value slot =>
    [hdr 0 op.disc, ⟨packHiLo name value⟩, ⟨packHiLo slot 0⟩]
  | .definePrivateW obj name value =>
    [hdr 0 op.disc, ⟨packHiLo obj value⟩, ⟨packHiLo name 0⟩]
  | .hasPrivateW dst obj name => [hdr 0 op.disc, ⟨packHiLo dst obj⟩, ⟨packHiLo name 0⟩]
  | .setPropertyR base key value receiver =>
    [hdr 0 op.disc, ⟨packHiLo base key⟩, ⟨packHiLo value receiver⟩]
  | .getSuperW dst base key receiver =>
    [hdr 0 op.disc, ⟨packHiLo dst base⟩, ⟨packHiLo key receiver⟩]

/-! ## §3 Decoding -/

/-- The `payload` closure of `try_decode`: payload word `i`, or truncation there. -/
def payload (words : List Instr) (i : Nat) : Except BytecodeError (BitVec 32) :=
  match words[i]? with
  | some w => .ok w.word
  | none => .error (.truncatedWide i)

/-- The discriminant match of `try_decode`, after the header checks. -/
def decodeBody (words : List Instr) (header : Instr) :
    Except BytecodeError (WideOp × Nat) := do
  match header.c.toNat with
  | 0 =>
    let (dst, constHi) := unpackHiLo (← payload words 1)
    -- the low half is taken as the whole payload word
    let constLo ← payload words 2
    return (.loadConstW dst (place 16 32 constHi ||| constLo), 3)
  | 1 =>
    let lo ← payload words 1
    let hi ← payload words 2
    let dst ← payload words 3
    return (.loadIntW (field 0 16 dst) (place 32 64 hi ||| place 0 64 lo), 4)
  | 2 =>
    let (dst, depth) := unpackHiLo (← payload words 1)
    let slot ← payload words 2
    return (.getEnvSlotW dst depth (field 0 16 slot), 3)
  | 3 =>
    let (src, depth) := unpackHiLo (← payload words 1)
    let slot ← payload words 2
    return (.setEnvSlotW src depth (field 0 16 slot), 3)
  | 4 =>
    let (dst, func) := unpackHiLo (← payload words 1)
    let argc ← payload words 2
    return (.callW dst func (field 0 16 argc), 3)
  | 10 =>
    let (dst, func) := unpackHiLo (← payload words 1)
    let argc ← payload words 2
    return (.constructW dst func (field 0 16 argc), 3)
  | 5 =>
    let (dst, src) := unpackHiLo (← payload words 1)
    let (exclBase, exclCount) := unpackHiLo (← payload words 2)
    return (.copyObjectRestW dst src exclBase exclCount, 3)
  | 6 =>
    let (dst, src) := unpackHiLo (← payload words 1)
    let start ← payload words 2
    return (.copyArrayRestW dst src (field 0 16 start), 3)
  | 7 =>
    let ext ← payload words 1
    return (.regExt header.a (field 16 8 ext) (field 8 8 ext) (field 0 8 ext), 2)
  | 8 =>
    let (dst, functionIndex) := unpackHiLo (← payload words 1)
    return (.closureW dst functionIndex, 2)
  | 9 =>
    let (depth, slots) := unpackHiLo (← payload words 1)
    return (.newEnvironmentW depth slots, 2)
  | 11 =>
    let (dst, kind) := unpackHiLo (← payload words 1)
    let description ← payload words 2
    return (.newPrivateNameW dst kind description, 3)
  | 12 =>
    let (name, value) := unpackHiLo (← payload words 1)
    let (slot, _) := unpackHiLo (← payload words 2)
    return (.setPrivateMethodW name value slot, 3)
  | 13 =>
    let (obj, value) := unpackHiLo (← payload words 1)
    let (name, _) := unpackHiLo (← payload words 2)
    return (.definePrivateW obj name value, 3)
  | 14 =>
    let (dst, obj) := unpackHiLo (← payload words 1)
    let (name, _) := unpackHiLo (← payload words 2)
    return (.hasPrivateW dst obj name, 3)
  | 15 =>
    let (base, key) := unpackHiLo (← payload words 1)
    let (value, receiver) := unpackHiLo (← payload words 2)
    return (.setPropertyR base key value receiver, 3)
  | 16 =>
    let (dst, base) := unpackHiLo (← payload words 1)
    let (key, receiver) := unpackHiLo (← payload words 2)
    return (.getSuperW dst base key receiver, 3)
  | _ => .error (.unknownWideDiscriminant (place 0 32 header.c))

/-- `WideOp::try_decode`: the op at the front of `words` and its word count. -/
def tryDecode (words : List Instr) : Except BytecodeError (WideOp × Nat) :=
  match words with
  | [] => .error (.truncatedWide 0)
  | header :: _ =>
    if header.op ≠ some .wide then .error .wideHeaderNotWide else decodeBody words header

/-! ## §4 Accessors -/

/-- `each_register`: the register fields with their operand names, in slot order. -/
def eachRegister : WideOp → List (String × BitVec 16)
  | .loadConstW dst _ => [("dst", dst)]
  | .loadIntW dst _ => [("dst", dst)]
  | .getEnvSlotW dst _ _ => [("dst", dst)]
  | .setEnvSlotW src _ _ => [("src", src)]
  | .callW dst func _ => [("dst", dst), ("callee", func)]
  | .constructW dst func _ => [("dst", dst), ("callee", func)]
  | .copyObjectRestW dst src exclBase _ => [("dst", dst), ("src", src), ("excl base", exclBase)]
  | .copyArrayRestW dst src _ => [("dst", dst), ("src", src)]
  | .regExt .. => []
  | .newEnvironmentW .. => []
  | .closureW dst _ => [("dst", dst)]
  | .newPrivateNameW dst _ _ => [("dst", dst)]
  | .setPrivateMethodW name value _ => [("name", name), ("value", value)]
  | .definePrivateW obj name value => [("obj", obj), ("name", name), ("value", value)]
  | .hasPrivateW dst obj name => [("dst", dst), ("obj", obj), ("name", name)]
  | .setPropertyR base key value receiver =>
    [("base", base), ("key", key), ("value", value), ("receiver", receiver)]
  | .getSuperW dst base key receiver =>
    [("dst", dst), ("base", base), ("key", key), ("receiver", receiver)]

/-- `env_allocation`: the slot count of the environment this variant allocates. -/
def envAllocation : WideOp → Option Nat
  | .newEnvironmentW _ slots => some slots.toNat
  | _ => none

/-- `env_access`: the `(depth, slot)` an environment access names. -/
def envAccess : WideOp → Option (Nat × Nat)
  | .getEnvSlotW _ depth slot => some (depth.toNat, slot.toNat)
  | .setEnvSlotW _ depth slot => some (depth.toNat, slot.toNat)
  | _ => none

end WideOp

end V12.Bytecode
