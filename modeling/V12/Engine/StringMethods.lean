/-
V12.Engine.StringMethods — the methods of strings that take windows of them, from
`v12-engine/src/builtins/string.rs`.

A method reads its receiver and its text arguments either as code units or, by
`this_text` and `arg_text`, as a host text, in which an unpaired surrogate is
U+FFFD.
-/
import V12.Lib.DoubleValue
import V12.Lib.Surrogates
import V12.Lib.Utf8

namespace V12.StringMethods

open Lib.Binary64 (Double truncate)
open Lib.Utf16

/-! ## §1 Arguments and answers -/

abbrev Units := List (BitVec 16)

/-- A string of the heap, which counts code units in 32 bits. -/
structure JsString where
  units : Units
  short : units.length < 2 ^ 32

/-- An index argument. -/
inductive Argument where
  | absent
  | undefined
  | number (x : Double)

/-- What a method answers. -/
inductive Answer where
  | text (s : Units)
  | code (u : BitVec 16)
  | nan
  | undefined
  | throws (message : String)
  /-- The host panics. -/
  | aborts
  deriving DecidableEq

/-- `this_text` of a string, and `arg_text`. -/
def thisText (s : Units) : List Char := decode s

/-- `utf16`. -/
def utf16 (text : List Char) : Units := encode text

/-- `integer_or_infinity`. -/
def integerOrInfinity : Double → Double
  | .nan => .finite 0
  | x => if x = .finite 0 then .finite 0 else x.trunc

/-- `to_index`. -/
def toIndex (x : Double) : ℤ := (integerOrInfinity x).toI64

/-- `to_int`. -/
def toInt : Argument → ℤ
  | .absent => 0
  | .undefined => toIndex .nan
  | .number x => toIndex x

def toIntOr (default : ℤ) : Argument → ℤ
  | .absent => default
  | v => toInt v

/-- What is made of an index argument, with a default for an absent one and for undefined. -/
def givenOr (default : ℤ) (f : ℤ → ℤ) : Argument → ℤ
  | .absent | .undefined => default
  | .number x => f (toIndex x)

/-- `units.get(i as usize)`: a negative index is behind the end of every vector. -/
def get (units : Units) (i : ℤ) : Option (BitVec 16) := if i < 0 then none else units[i.toNat]?

/-- `&units[start..end]`. -/
def range (units : Units) (start stop : ℤ) : Units := window units start.toNat (stop - start).toNat

/-! ## §2 One code unit -/

def stringCharAt (s : Units) (pos : Argument) : Answer :=
  match get s (toInt pos) with
  | some unit => .text [unit]
  | none => .text []

def stringCharCodeAt (s : Units) (pos : Argument) : Answer :=
  match get (utf16 (thisText s)) (toInt pos) with
  | some u => .code u
  | none => .nan

def stringAt (s : Units) (index : Argument) : Answer :=
  let units := utf16 (thisText s)
  let len : ℤ := units.length
  let i := givenOr 0 (fun n => if n < 0 then len + n else n) index
  if i < 0 ∨ len ≤ i then .undefined
  else
    match get units i with
    | some unit => .text (encode [unitChar unit])
    | none => .aborts

/-! ## §3 Windows -/

def clampIndex (index len : ℤ) : ℤ := if index < 0 then max (len + index) 0 else min index len

/-- `clamp`. -/
def clamp (n lo hi : ℤ) : ℤ := max lo (min n hi)

def stringSlice (s : Units) (start stop : Argument) : Units :=
  let len : ℤ := s.length
  let lo := clampIndex (toIntOr 0 start) len
  let hi := clampIndex (toIntOr len stop) len
  let lo := if hi < lo then hi else lo
  range s lo hi

/-- `String::from_utf16_lossy`, interned. -/
def internLossy (units : Units) : Units := utf16 (decode units)

def stringSubstring (s : Units) (start stop : Argument) : Units :=
  let units := utf16 (thisText s)
  let len : ℤ := units.length
  let start := clamp (toInt start) 0 len
  let stop := givenOr len (fun n => clamp n 0 len) stop
  if stop < start then internLossy (range units stop start) else internLossy (range units start stop)

def stringSubstr (s : Units) (start length : Argument) : Units :=
  let units := utf16 (thisText s)
  let len : ℤ := units.length
  let start := clampIndex (toIntOr 0 start) len
  let length := givenOr (len - start) (fun n => min (max n 0) (len - start)) length
  internLossy (range units start (start + length))

/-! ## §4 Longer texts -/

def stringConcat (s : Units) (args : List Units) : Units :=
  utf16 (args.foldl (fun text v => text ++ thisText v) (thisText s))

/-- `String::repeat`: the capacity of a vector is below `2 ^ 63`. -/
def repeatText (text : List Char) (n : Nat) : Option (List Char) :=
  if (Lib.Utf8.bytes text).length * n < 2 ^ 63 then some (List.replicate n text).flatten else none

def toU64 : Double → Nat
  | .nan => 0
  | .infinite s => if s then 0 else 2 ^ 64 - 1
  | .finite q => min (truncate q).toNat (2 ^ 64 - 1)

def stringRepeat (s : Units) (count : Argument) : Answer :=
  let n : Double := match count with
    | .absent => .finite 0
    | .undefined => .nan
    | .number x => x
  if n = .nan then .text []
  else if n.lt (.finite 0) || n.isFinite = false then .throws "RangeError: Invalid count value"
  else
    match repeatText (thisText s) (toU64 n.trunc) with
    | some text => .text (utf16 text)
    | none => .aborts

/-- `f64::clamp`. -/
def clampDouble (x : Double) (lo hi : ℤ) : Double :=
  if x.lt (Double.ofInt lo) then Double.ofInt lo
  else if (Double.ofInt hi).lt x then Double.ofInt hi
  else x

/-- The loop of `pad`, of at most `n` turns. -/
def padLoop (fill : Units) (n : Nat) : Nat → Units → Units
  | 0, padUnits => padUnits
  | turns + 1, padUnits =>
    if padUnits.length < n then padLoop fill n turns (padUnits ++ fill) else padUnits

def padTarget : Argument → Nat
  | .absent => 0
  | .undefined => toU64 (clampDouble .nan 0 4294967295)
  | .number x => toU64 (clampDouble x 0 4294967295)

def padFill : Option Units → List Char
  | none => [' ']
  | some v => thisText v

def pad (s : Units) (target : Argument) (fill : Option Units) (start : Bool) : Units :=
  let target := padTarget target
  let units := utf16 (thisText s)
  if target ≤ units.length then utf16 (thisText s)
  else
    let fillUnits := utf16 (padFill fill)
    if fillUnits = [] then utf16 (thisText s)
    else
      let n := target - units.length
      let padUnits := (padLoop fillUnits n n []).take n
      internLossy (if start then padUnits ++ units else units ++ padUnits)

def stringPadStart (s : Units) (target : Argument) (fill : Option Units) : Units :=
  pad s target fill true

def stringPadEnd (s : Units) (target : Argument) (fill : Option Units) : Units :=
  pad s target fill false

def toU16 : Double → BitVec 16
  | .nan => 0
  | .infinite s => if s then 0 else 65535
  | .finite q => BitVec.ofNat 16 (min (truncate q).toNat 65535)

def stringFromCharCode (args : List Double) : Units :=
  internLossy (args.map fun n => if n = .nan then 0 else toU16 n)

end V12.StringMethods
