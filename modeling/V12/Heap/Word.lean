/-
V12.Heap.Word — the machine word of a value, from `v12-heap/src/value.rs`.

A word is a raw double or, under the box prefix, a tag over a payload. The
type predicates check canonical form in a debug build only, so they take the
build as an argument. A double is its bits.
-/
import V12.Heap.Elements

namespace V12.Heap

/-! ## §1 The layout -/

/-- `TAG_MASK`. -/
def TAG_MASK : BitVec 64 := 0xF00000000000#64

/-- `SPARE_MASK`: bits 50..48. -/
def SPARE_MASK : BitVec 64 := 0x7000000000000#64

def REF_PAYLOAD_MASK : BitVec 64 := 0xFFFFFFFF#64

def SMI_PAYLOAD_MASK : BitVec 64 := 0x7FFFFFFF#64

/-- `LOWER_BITS_MASK`: everything under the tag. -/
def LOWER_BITS_MASK : BitVec 64 := 0xFFFFFFFFFFF#64

/-- `JsValue(u64)`. -/
structure JsWord where
  bits : BitVec 64
  deriving DecidableEq, Repr

/-- The tags, `TAG_SMI` to `TAG_EMPTY`. -/
inductive Tag where
  | smi | object | string | symbol | bigint | undefined | null | false_ | true_ | hole | empty
  deriving DecidableEq, Repr

def Tag.toNat : Tag → Nat
  | .smi => 0 | .object => 1 | .string => 2 | .symbol => 3 | .bigint => 4 | .undefined => 5
  | .null => 6 | .false_ => 7 | .true_ => 8 | .hole => 9 | .empty => 10

namespace JsWord

def boxed (tag : Tag) (payload : BitVec 64) : BitVec 64 :=
  BOX_MASK ||| (BitVec.ofNat 64 tag.toNat <<< 44) ||| payload

def isBoxed (w : JsWord) : Bool := w.bits &&& BOX_MASK == BOX_MASK

def tag (w : JsWord) : BitVec 64 := (w.bits &&& TAG_MASK) >>> 44

/-! ## §2 Constructors -/

def boxedWith (tag : Tag) : JsWord := ⟨boxed tag 0⟩

def fromF64 (f : BitVec 64) : JsWord :=
  if f &&& BOX_MASK = BOX_MASK then ⟨QUIET_NAN_BITS⟩ else ⟨f⟩

def fromI32Smi (v : BitVec 32) : Option JsWord :=
  if JsValue.SMI_MIN ≤ v.toInt ∧ v.toInt ≤ JsValue.SMI_MAX then
    some ⟨boxed .smi (v.zeroExtend 64 &&& SMI_PAYLOAD_MASK)⟩
  else none

def undefined : JsWord := boxedWith .undefined

def null : JsWord := boxedWith .null

def fromBool (b : Bool) : JsWord := if b then boxedWith .true_ else boxedWith .false_

def hole : JsWord := boxedWith .hole

def empty : JsWord := boxedWith .empty

def object (h : BitVec 32) : JsWord := ⟨boxed .object (h.zeroExtend 64)⟩

def string (h : BitVec 32) : JsWord := ⟨boxed .string (h.zeroExtend 64)⟩

def symbol (h : BitVec 32) : JsWord := ⟨boxed .symbol (h.zeroExtend 64)⟩

def bigint (h : BitVec 32) : JsWord := ⟨boxed .bigint (h.zeroExtend 64)⟩

/-! ## §3 Canonical form and the predicates -/

def payloadMask (tag : BitVec 64) : Option (BitVec 64) :=
  match tag.toNat with
  | 0 => some SMI_PAYLOAD_MASK
  | 1 | 2 | 3 | 4 => some REF_PAYLOAD_MASK
  | 5 | 6 | 7 | 8 | 9 | 10 => some 0
  | _ => none

def isCanonical (w : JsWord) : Bool :=
  if !w.isBoxed then true
  else if w.bits &&& SPARE_MASK ≠ 0 then false
  else
    match payloadMask w.tag with
    | some mask => w.bits &&& LOWER_BITS_MASK &&& ~~~mask == 0
    | none => false

def fromBits (bits : BitVec 64) : Option JsWord :=
  if (JsWord.mk bits).isCanonical then some ⟨bits⟩ else none

variable (debug : Bool) (w : JsWord)

def tagged (tags : List Tag) : Bool :=
  let tagMatches := tags.any fun tag => w.tag == BitVec.ofNat 64 tag.toNat
  if debug then w.isBoxed && w.isCanonical && tagMatches else w.isBoxed && tagMatches

def hasTag (tag : Tag) : Bool := tagged debug w [tag]

def isF64 : Bool := !w.isBoxed

def isSmi : Bool := hasTag debug w .smi

def isObject : Bool := hasTag debug w .object

def isString : Bool := hasTag debug w .string

def isSymbol : Bool := hasTag debug w .symbol

def isBigint : Bool := hasTag debug w .bigint

def isUndefined : Bool := hasTag debug w .undefined

def isNull : Bool := hasTag debug w .null

def isBoolean : Bool := tagged debug w [.true_, .false_]

def isTrue : Bool := hasTag debug w .true_

def isFalse : Bool := hasTag debug w .false_

def isHole : Bool := hasTag debug w .hole

def isEmpty : Bool := hasTag debug w .empty

/-! ## §4 Extractors -/

def asF64 : Option (BitVec 64) := if w.isBoxed then none else some w.bits

/-- Sign extension from bit 30, by a shift up and an arithmetic shift down. -/
def asSmi : Option (BitVec 32) :=
  if w.isSmi debug then
    some ((((w.bits &&& SMI_PAYLOAD_MASK).setWidth 32) <<< 1).sshiftRight 1)
  else none

def refHandle (tag : Tag) : Option (BitVec 32) :=
  if w.isBoxed && w.tag == BitVec.ofNat 64 tag.toNat then
    some ((w.bits &&& REF_PAYLOAD_MASK).setWidth 32)
  else none

def asObject : Option (BitVec 32) := w.refHandle .object

def asString : Option (BitVec 32) := w.refHandle .string

def asSymbol : Option (BitVec 32) := w.refHandle .symbol

def asBigint : Option (BitVec 32) := w.refHandle .bigint

def asBool : Option Bool :=
  if w.isTrue debug then some true else if w.isFalse debug then some false else none

end JsWord

end V12.Heap
