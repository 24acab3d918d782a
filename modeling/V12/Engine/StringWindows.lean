/-
V12.Engine.StringWindows — which calls of the string methods compute the operation
on code units that they stand for.

The operations are stated on lists of code units, with index arguments as integers
or infinities (`Place`). The methods that go through a host text lose the unpaired
surrogates of what they return; the others clamp or read an argument in their own
way.
-/
import V12.Engine.StringMethods
import V12.Lib.StrSlice

namespace V12.StringMethods

open Lib.Binary64 (Double truncate)
open Lib.Utf16

variable {s fill : Units} {n : Nat}

/-! ## §1 Operations on code units -/

/-- Where an index points. -/
inductive Place where
  | first
  | at (z : ℤ)
  | last

def toPlace : Double → Place
  | .nan => .at 0
  | .infinite s => if s then .first else .last
  | .finite q => .at (truncate q)

def Argument.place : Argument → Place
  | .absent | .undefined => .at 0
  | .number x => toPlace x

namespace Place

/-- The nearest offset of a list of `len` units. -/
def within (len : Nat) : Place → Nat
  | .first => 0
  | .at z => min z.toNat len
  | .last => len

/-- The same, of an index that counts from the end if it is negative. -/
def relative (len : Nat) : Place → Nat
  | .first => 0
  | .at z => if z < 0 then (len + z).toNat else min z.toNat len
  | .last => len

/-- An index that counts from the end if it is negative, from the start. -/
def fromEnd (len : Nat) : Place → Place
  | .at z => if z < 0 then .at (len + z) else .at z
  | p => p

end Place

def unitAt (s : Units) : Place → Option (BitVec 16)
  | .at z => if 0 ≤ z then s[z.toNat]? else none
  | _ => none

def Argument.given : Argument → Option Place
  | .number x => some (toPlace x)
  | _ => none

/-- The offsets between two indices that count from the end if negative. -/
def sliceUnits (s : Units) (start stop : Argument) : Units :=
  let lo := start.place.relative s.length
  let hi := stop.given.elim s.length (Place.relative s.length)
  window s lo (hi - lo)

def substringUnits (s : Units) (start stop : Argument) : Units :=
  let lo := start.place.within s.length
  let hi := stop.given.elim s.length (Place.within s.length)
  window s (min lo hi) (max lo hi - min lo hi)

def substrUnits (s : Units) (start length : Argument) : Units :=
  window s (start.place.relative s.length) (length.given.elim s.length (Place.within s.length))

def toLength : Place → Nat
  | .first => 0
  | .at z => min z.toNat (2 ^ 53 - 1)
  | .last => 2 ^ 53 - 1

def fillText (fill : Option Units) : Units := fill.getD [0x20]

/-- `n` units of a text that is repeated. -/
def padding (fill : Units) (n : Nat) : Units :=
  (List.range n).map fun i => fill.getD (i % fill.length) 0

def Pads (s : Units) (target : Argument) (fill : Option Units) : Prop :=
  s.length < toLength target.place ∧ fillText fill ≠ []

instance (s : Units) (target : Argument) (fill : Option Units) : Decidable (Pads s target fill) :=
  inferInstanceAs (Decidable (_ ∧ _))

def padUnits (s : Units) (target : Argument) (fill : Option Units) (start : Bool) : Units :=
  if Pads s target fill then
    let p := padding (fillText fill) (toLength target.place - s.length)
    if start then p ++ s else s ++ p
  else s

def toUint16 : Place → BitVec 16
  | .at z => BitVec.ofNat 16 (z % 65536).toNat
  | _ => 0

/-! ## §2 Calls -/

/-- A call of a method, or a law about some. -/
inductive Call where
  | charAt (s : JsString) (pos : Argument)
  | charCodeAt (s : JsString) (pos : Argument)
  | at (s : JsString) (index : Argument)
  | slice (s : JsString) (start stop : Argument)
  | substring (s : JsString) (start stop : Argument)
  | substr (s : JsString) (start length : Argument)
  | concat (s : JsString) (parts : List JsString)
  | repeat (s : JsString) (count : Argument)
  | padStart (s : JsString) (target : Argument) (fill : Option JsString)
  | padEnd (s : JsString) (target : Argument) (fill : Option JsString)
  | fromCharCode (codes : List Double)
  /-- `s.slice(0, i).concat(s.slice(i))` is `s`. -/
  | rejoin (s : JsString) (i : Double)
  /-- Inside the string, `at` and `charAt` agree. -/
  | atCharAt (s : JsString) (index : Argument)
  /-- `fromCharCode` of the `charCodeAt` of each position is `s`. -/
  | rebuild (s : JsString)

def Answer.toDouble : Answer → Double
  | .code u => .finite u.toNat
  | _ => .nan

def charCodes (s : Units) : List Double :=
  (List.range s.length).map fun (i : Nat) => (stringCharCodeAt s (.number (.finite i))).toDouble

/-- A call computes the operation on code units. A count without an operation is an error. -/
def Computes : Call → Prop
  | .charAt s pos => stringCharAt s.units pos = .text (unitAt s.units pos.place).toList
  | .charCodeAt s pos =>
    stringCharCodeAt s.units pos = (unitAt s.units pos.place).elim .nan .code
  | .at s index => stringAt s.units index =
      (unitAt s.units (index.place.fromEnd s.units.length)).elim .undefined fun u => .text [u]
  | .slice s start stop => stringSlice s.units start stop = sliceUnits s.units start stop
  | .substring s start stop => stringSubstring s.units start stop = substringUnits s.units start stop
  | .substr s start length => stringSubstr s.units start length = substrUnits s.units start length
  | .concat s parts => stringConcat s.units (parts.map JsString.units) =
      s.units ++ (parts.map JsString.units).flatten
  | .repeat s count =>
    match count.place with
    | .at z => if 0 ≤ z then stringRepeat s.units count =
        .text (List.replicate z.toNat s.units).flatten
      else ∃ message, stringRepeat s.units count = .throws message
    | _ => ∃ message, stringRepeat s.units count = .throws message
  | .padStart s target fill => stringPadStart s.units target (fill.map JsString.units) =
      padUnits s.units target (fill.map JsString.units) true
  | .padEnd s target fill => stringPadEnd s.units target (fill.map JsString.units) =
      padUnits s.units target (fill.map JsString.units) false
  | .fromCharCode codes => stringFromCharCode codes = codes.map fun n => toUint16 (toPlace n)
  | .rejoin s i => stringConcat (stringSlice s.units (.number (.finite 0)) (.number i))
      [stringSlice s.units (.number i) .absent] = s.units
  | .atCharAt s index => (unitAt s.units index.place).isSome →
      stringAt s.units index = stringCharAt s.units index
  | .rebuild s => stringFromCharCode (charCodes s.units) = s.units

def Vanishes : Argument → Prop
  | .number (.finite q) => q < 0 ∧ truncate q = 0
  | _ => False

def CastsAlike : Place → Prop
  | .first => True
  | .at z => (0 ≤ z ∧ z < 65536) ∨ (65536 ≤ z ∧ z % 65536 = 65535) ∨ (z < 0 ∧ z % 65536 = 0)
  | .last => False

def IsSurrogate (u : BitVec 16) : Prop := IsHigh u ∨ IsLow u

/-- What padding is fine: the string and the padding have their surrogates in pairs, and the
length is below `2 ^ 32`. -/
def PadsFine (s : Units) (target : Argument) (fill : Option Units) : Prop :=
  Paired s ∧ (Pads s target fill → toLength target.place < 2 ^ 32 ∧
    Paired (padding (fillText fill) (toLength target.place - s.length)))

def Unaffected : Call → Prop
  | .charAt _ _ => True
  | .charCodeAt s pos => ∀ z, pos.place = .at z → 0 ≤ z → ¬ Unpaired s.units z.toNat
  | .at s index => ∀ u ∈ unitAt s.units (index.place.fromEnd s.units.length), ¬ IsSurrogate u
  | .slice s start stop =>
    stop = .undefined → s.units.length ≤ start.place.relative s.units.length
  | .substring s start stop => Paired (substringUnits s.units start stop)
  | .substr s start length => Paired (substrUnits s.units start length)
  | .concat s parts => Paired s.units ∧ ∀ t ∈ parts, Paired t.units
  | .repeat s count => ¬ Vanishes count ∧ ∀ z, count.place = .at z → 0 < z →
      Paired s.units ∧ (Lib.Utf8.bytes (decode s.units)).length * z.toNat < 2 ^ 63
  | .padStart s target fill | .padEnd s target fill =>
    PadsFine s.units target (fill.map JsString.units)
  | .fromCharCode codes => (∀ n ∈ codes, CastsAlike (toPlace n)) ∧
      Paired (codes.map fun n => toUint16 (toPlace n))
  | .rejoin s i => Paired (s.units.take ((toPlace i).relative s.units.length)) ∧
      Paired (s.units.drop ((toPlace i).relative s.units.length))
  | .atCharAt s index => ∀ u ∈ unitAt s.units index.place, ¬ IsSurrogate u
  | .rebuild s => Paired s.units

/-! ## §3 Indices -/

def Place.toI64 : Place → ℤ
  | .first => -2 ^ 63
  | .at z => max (-2 ^ 63) (min z (2 ^ 63 - 1))
  | .last => 2 ^ 63 - 1

theorem truncate_zero : truncate 0 = 0 := by simp [truncate]

theorem toIndex_eq (x : Double) : toIndex x = (toPlace x).toI64 := by
  cases x with
  | nan =>
    change max (-2 ^ 63) (min (truncate 0) (2 ^ 63 - 1)) = _
    rw [truncate_zero]
    rfl
  | infinite s =>
    cases s <;> rfl
  | finite q =>
    unfold toIndex integerOrInfinity
    dsimp only
    split
    case isTrue h =>
      obtain rfl := Double.finite.inj h
      rfl
    case isFalse =>
      change max (-2 ^ 63) (min (truncate (truncate q : ℚ)) (2 ^ 63 - 1)) = _
      rw [Lib.Binary64.truncate_intCast]
      rfl

theorem toInt_eq (a : Argument) : toInt a = a.place.toI64 := by
  cases a with
  | absent => rfl
  | undefined => exact toIndex_eq .nan
  | number x => exact toIndex_eq x

theorem clampIndex_toI64 {len : Nat} (h : len < 2 ^ 63) (p : Place) :
    clampIndex p.toI64 len = p.relative len := by
  unfold clampIndex Place.toI64 Place.relative
  cases p with
  | first =>
    dsimp only
    omega
  | last =>
    dsimp only
    omega
  | «at» z =>
    dsimp only
    split <;> split <;> omega

section Bounded

variable {s : Units} (h : s.length < 2 ^ 32)

include h

theorem get_toI64 (p : Place) : get s p.toI64 = unitAt s p := by
  unfold get
  cases p with
  | first => rfl
  | last =>
    rw [if_neg (by decide)]
    refine List.getElem?_eq_none ?_
    have hlast : (Place.toI64 .last).toNat = 2 ^ 63 - 1 := by decide
    rw [hlast]
    omega
  | «at» z =>
    unfold unitAt Place.toI64
    dsimp only
    by_cases hneg : z < 0
    · rw [if_pos (by omega), if_neg (by omega)]
    · rw [if_neg (by omega), if_pos (by omega)]
      by_cases hlarge : z < 2 ^ 63
      · congr 1
        omega
      · rw [List.getElem?_eq_none (by omega), List.getElem?_eq_none (by omega)]

theorem clamp_toI64 (p : Place) : clamp p.toI64 0 s.length = p.within s.length := by
  unfold clamp Place.toI64 Place.within
  cases p with
  | first =>
    dsimp only
    omega
  | last =>
    dsimp only
    omega
  | «at» z =>
    dsimp only
    omega

end Bounded

/-! ## §4 One code unit -/

theorem mark_of_not_surrogate {u : BitVec 16} (h : ¬ IsSurrogate u) : mark u = u := if_neg h

theorem not_surrogate_mark (u : BitVec 16) : ¬ IsSurrogate (mark u) := by
  unfold mark
  split
  case isTrue =>
    unfold IsSurrogate
    decide
  case isFalse h => exact h

theorem unitAt_lossy_iff (s : Units) (p : Place) : unitAt (lossy s) p = unitAt s p ↔
    ∀ z, p = .at z → 0 ≤ z → ¬ Unpaired s z.toNat := by
  constructor
  · rintro h z rfl hz
    unfold unitAt at h
    dsimp only at h
    rw [if_pos hz, if_pos hz] at h
    exact getElem?_lossy_eq_iff.mp h
  · intro h
    cases p with
    | first => rfl
    | last => rfl
    | «at» z =>
      unfold unitAt
      dsimp only
      by_cases hz : 0 ≤ z
      · rw [if_pos hz, if_pos hz]
        exact getElem?_lossy_eq_iff.mpr (h z rfl hz)
      · rw [if_neg hz, if_neg hz]

theorem unitAt_lossy (s : Units) (p : Place) :
    (unitAt s p = none ∧ unitAt (lossy s) p = none) ∨
      ∃ u v, unitAt s p = some u ∧ unitAt (lossy s) p = some v ∧ mark v = mark u := by
  cases p with
  | first => exact .inl ⟨rfl, rfl⟩
  | last => exact .inl ⟨rfl, rfl⟩
  | «at» z =>
    unfold unitAt
    dsimp only
    by_cases hz : 0 ≤ z
    · rw [if_pos hz, if_pos hz]
      generalize z.toNat = i
      by_cases hunpaired : Unpaired s i
      · obtain ⟨u, hu, hsurrogate⟩ := hunpaired.surrogate
        refine .inr ⟨u, 0xFFFD, hu, getElem?_lossy_of_unpaired hunpaired, ?_⟩
        rw [mark, mark, if_pos hsurrogate, if_neg (by decide)]
      · rw [getElem?_lossy_of_paired hunpaired]
        cases hunit : s[i]? with
        | none => exact .inl ⟨rfl, rfl⟩
        | some u => exact .inr ⟨u, u, rfl, rfl, rfl⟩
    · rw [if_neg hz, if_neg hz]
      exact .inl ⟨rfl, rfl⟩

theorem stringCharAt_eq (s : JsString) (pos : Argument) :
    stringCharAt s.units pos = .text (unitAt s.units pos.place).toList := by
  unfold stringCharAt
  rw [toInt_eq, get_toI64 s.short]
  cases unitAt s.units pos.place with
  | none => rfl
  | some u => rfl

theorem short_lossy (s : JsString) : (lossy s.units).length < 2 ^ 32 := by
  rw [length_lossy]
  exact s.short

theorem stringCharCodeAt_eq (s : JsString) (pos : Argument) :
    stringCharCodeAt s.units pos = (unitAt (lossy s.units) pos.place).elim .nan .code := by
  have hget : get (utf16 (thisText s.units)) (toInt pos) = unitAt (lossy s.units) pos.place := by
    rw [toInt_eq]
    exact get_toI64 (short_lossy s) _
  rw [stringCharCodeAt, hget]
  cases unitAt (lossy s.units) pos.place with
  | none => rfl
  | some u => rfl

theorem charCodeAt_iff (s : JsString) (pos : Argument) :
    Computes (.charCodeAt s pos) ↔ Unaffected (.charCodeAt s pos) := by
  change stringCharCodeAt s.units pos = (unitAt s.units pos.place).elim .nan .code ↔ _
  rw [stringCharCodeAt_eq, Unaffected, ← unitAt_lossy_iff]
  constructor
  · intro h
    cases hleft : unitAt (lossy s.units) pos.place <;> cases hright : unitAt s.units pos.place <;>
      rw [hleft, hright] at h
    case some.some => exact congrArg some (Answer.code.inj h)
    all_goals cases h
  · intro h
    rw [h]

theorem unitAt_outside {units : Units} {w : ℤ} (h : w < 0 ∨ (units.length : ℤ) ≤ w) :
    unitAt units (.at w) = none := by
  unfold unitAt
  dsimp only
  split
  case isTrue => exact List.getElem?_eq_none (by omega)
  case isFalse => rfl

/-- An index of `at`, counted from the start. -/
def fromStart (len : Nat) (n : ℤ) : ℤ := if n < 0 then len + n else n

theorem unitAt_fromStart {units : Units} (hlen : units.length < 2 ^ 32) (p : Place) :
    unitAt units (.at (fromStart units.length p.toI64)) = unitAt units (p.fromEnd units.length) := by
  unfold fromStart Place.toI64
  cases p with
  | first =>
    dsimp only
    rw [if_pos (by decide)]
    exact unitAt_outside (.inl (by omega))
  | last =>
    dsimp only
    rw [if_neg (by decide)]
    exact unitAt_outside (.inr (by omega))
  | «at» z =>
    unfold Place.fromEnd
    dsimp only
    by_cases hneg : z < 0
    · rw [if_pos (by omega), if_pos hneg]
      by_cases hlow : -2 ^ 63 ≤ z
      · congr 2
        omega
      · rw [unitAt_outside (.inl (by omega)), unitAt_outside (.inl (by omega))]
    · rw [if_neg (by omega), if_neg hneg]
      by_cases hhigh : z ≤ 2 ^ 63 - 1
      · congr 2
        omega
      · rw [unitAt_outside (.inr (by omega)), unitAt_outside (.inr (by omega))]

theorem stringAt_fromStart (s : Units) (index : Argument) : stringAt s index =
    (let i := fromStart (lossy s).length index.place.toI64
      if i < 0 ∨ ((lossy s).length : ℤ) ≤ i then .undefined
      else
        match get (lossy s) i with
        | some unit => .text (encode [unitChar unit])
        | none => .aborts) := by
  have hindex : givenOr 0 (fun n => if n < 0 then ((lossy s).length : ℤ) + n else n) index =
      fromStart (lossy s).length index.place.toI64 := by
    rw [← toInt_eq]
    cases index <;> rfl
  rw [← hindex]
  rfl

theorem stringAt_eq (s : JsString) (index : Argument) :
    stringAt s.units index = (unitAt (lossy s.units) (index.place.fromEnd s.units.length)).elim
      .undefined fun u => .text [mark u] := by
  have hunit := unitAt_fromStart (short_lossy s) index.place
  rw [length_lossy] at hunit
  rw [stringAt_fromStart, ← hunit]
  dsimp only
  rw [length_lossy]
  generalize fromStart s.units.length index.place.toI64 = i
  by_cases hout : i < 0 ∨ (s.units.length : ℤ) ≤ i
  · rw [if_pos hout, unitAt_outside (by rw [length_lossy]; exact hout)]
    rfl
  · have hget : get (lossy s.units) i = unitAt (lossy s.units) (.at i) := by
      unfold get unitAt
      dsimp only
      rw [if_neg (by omega), if_pos (by omega)]
    have hsome : ∃ u, unitAt (lossy s.units) (.at i) = some u := by
      unfold unitAt
      dsimp only
      rw [if_pos (by omega)]
      refine ⟨_, List.getElem?_eq_getElem ?_⟩
      rw [length_lossy]
      omega
    obtain ⟨u, hu⟩ := hsome
    rw [if_neg hout, hget, hu]
    dsimp only [Option.elim_some]
    rw [encode_cons, encode_unitChar]
    rfl

theorem elim_mark_iff (s : Units) (p : Place) (a : Answer) :
    ((unitAt (lossy s) p).elim a fun u => .text [mark u]) =
      ((unitAt s p).elim a fun u => .text [u]) ↔ ∀ u ∈ unitAt s p, ¬ IsSurrogate u := by
  rcases unitAt_lossy s p with ⟨hnone, hnone'⟩ | ⟨u, v, hu, hv, hmark⟩
  · rw [hnone, hnone']
    simp
  · rw [hu, hv]
    simp only [Option.elim_some, Answer.text.injEq, List.cons.injEq, and_true, Option.mem_def,
      Option.some.injEq]
    rw [hmark]
    constructor
    · rintro h w rfl
      rw [← h]
      exact not_surrogate_mark u
    · intro h
      exact mark_of_not_surrogate (h u rfl)

theorem at_iff (s : JsString) (index : Argument) :
    Computes (.at s index) ↔ Unaffected (.at s index) := by
  change stringAt s.units index = _ ↔ _
  rw [stringAt_eq]
  exact elim_mark_iff _ _ _

theorem atCharAt_iff (s : JsString) (index : Argument) :
    Computes (.atCharAt s index) ↔ Unaffected (.atCharAt s index) := by
  have hplace : ∀ u, unitAt s.units index.place = some u →
      index.place.fromEnd s.units.length = index.place := by
    intro u hu
    cases hp : index.place with
    | first => rfl
    | last => rfl
    | «at» z =>
      rw [hp] at hu
      unfold unitAt at hu
      dsimp only at hu
      split at hu
      case isTrue hz => exact if_neg (by omega)
      case isFalse => cases hu
  change ((unitAt s.units index.place).isSome → _) ↔ _
  rw [stringAt_eq, stringCharAt_eq]
  have hmark := elim_mark_iff s.units index.place .undefined
  unfold Unaffected
  dsimp only
  rw [← hmark]
  cases hunit : unitAt s.units index.place with
  | none =>
    rcases unitAt_lossy s.units index.place with ⟨-, hnone⟩ | ⟨u, v, hu, -⟩
    · rw [hnone]
      simp
    · rw [hunit] at hu
      cases hu
  | some u =>
    rw [hplace u hunit]
    simp

/-! ## §5 Windows -/

theorem window_nil {a : Nat} : window s a n = [] ↔ n = 0 ∨ s.length ≤ a := by
  rw [← List.length_eq_zero_iff, length_window]
  omega

theorem window_min (s : Units) (a n : Nat) : window s a (min n (s.length - a)) = window s a n := by
  refine List.ext_getElem? fun i => ?_
  rw [getElem?_window, getElem?_window]
  by_cases hi : i < n
  · by_cases hlength : i < s.length - a
    · rw [if_pos (by omega), if_pos hi]
    · rw [if_neg (by omega), if_pos hi, List.getElem?_eq_none (by omega)]
  · rw [if_neg (by omega), if_neg hi]

theorem relative_le (p : Place) (len : Nat) : p.relative len ≤ len := by
  unfold Place.relative
  cases p with
  | first => exact Nat.zero_le _
  | last => exact Nat.le_refl _
  | «at» z =>
    dsimp only
    split <;> omega

theorem within_le (p : Place) (len : Nat) : p.within len ≤ len := by
  unfold Place.within
  cases p with
  | first => exact Nat.zero_le _
  | last => exact Nat.le_refl _
  | «at» z => exact Nat.min_le_right _ _

theorem toIntOr_zero (a : Argument) : toIntOr 0 a = a.place.toI64 := by
  rw [← toInt_eq]
  cases a <;> rfl

theorem givenOr_eq (default : ℤ) (f : ℤ → ℤ) (a : Argument) :
    givenOr default f a = a.given.elim default fun p => f p.toI64 := by
  cases a with
  | absent => rfl
  | undefined => rfl
  | number x =>
    change f (toIndex x) = _
    rw [toIndex_eq]
    rfl

theorem elim_cast (o : Option Place) (len : Nat) {f : Place → ℤ} {g : Place → Nat}
    (h : ∀ p, f p = g p) : o.elim (len : ℤ) f = (o.elim len g : Nat) := by
  cases o with
  | none => rfl
  | some p => exact h p

theorem stringSlice_eq (s : JsString) (start : Argument) {stop : Argument} (hstop : stop ≠ .undefined) :
    stringSlice s.units start stop = sliceUnits s.units start stop := by
  have hhi : clampIndex (toIntOr s.units.length stop) s.units.length =
      (stop.given.elim s.units.length (Place.relative s.units.length) : Nat) := by
    cases stop with
    | absent =>
      change clampIndex s.units.length s.units.length = s.units.length
      unfold clampIndex
      omega
    | undefined => exact absurd rfl hstop
    | number x =>
      change clampIndex (toIndex x) _ = _
      rw [toIndex_eq, clampIndex_toI64 (s.short.trans (by decide))]
      rfl
  unfold stringSlice sliceUnits
  dsimp only
  rw [hhi, toIntOr_zero, clampIndex_toI64 (s.short.trans (by decide))]
  generalize start.place.relative s.units.length = lo
  generalize stop.given.elim s.units.length (Place.relative s.units.length) = hi
  unfold range
  by_cases hlt : (hi : ℤ) < lo
  · rw [if_pos hlt, window_nil.mpr (.inl (by omega)), window_nil.mpr (.inl (by omega))]
  · rw [if_neg hlt]
    congr 1
    omega

theorem stringSlice_undefined (s : JsString) (start : Argument) :
    stringSlice s.units start .undefined = [] := by
  have hhi : clampIndex (toIntOr s.units.length .undefined) s.units.length = 0 := by
    change clampIndex (toInt .undefined) _ = _
    rw [toInt_eq, clampIndex_toI64 (s.short.trans (by decide))]
    change ((min (0 : ℤ).toNat s.units.length : Nat) : ℤ) = 0
    rw [Int.toNat_zero, Nat.zero_min]
    rfl
  unfold stringSlice
  dsimp only
  rw [hhi, toIntOr_zero, clampIndex_toI64 (s.short.trans (by decide))]
  unfold range
  refine window_nil.mpr (.inl ?_)
  split <;> omega

theorem slice_iff (s : JsString) (start stop : Argument) :
    Computes (.slice s start stop) ↔ Unaffected (.slice s start stop) := by
  change stringSlice s.units start stop = sliceUnits s.units start stop ↔ (stop = .undefined → _)
  by_cases hstop : stop = .undefined
  · subst hstop
    have hle := relative_le start.place s.units.length
    rw [stringSlice_undefined]
    unfold sliceUnits
    dsimp only [Argument.given, Option.elim_none]
    rw [eq_comm, window_nil]
    constructor
    · intro h _
      omega
    · intro h
      have := h rfl
      omega
  · rw [stringSlice_eq s start hstop]
    exact iff_of_true rfl fun h => absurd h hstop

theorem internLossy_range {lo hi : Nat} :
    internLossy (range (lossy s) lo hi) = window s lo (hi - lo) ↔ Paired (window s lo (hi - lo)) := by
  have hrange : range (lossy s) lo hi = window (lossy s) lo (hi - lo) := by
    unfold range
    congr 1
    omega
  rw [hrange]
  exact lossy_window_lossy_iff

theorem substring_iff (s : JsString) (start stop : Argument) :
    Computes (.substring s start stop) ↔ Unaffected (.substring s start stop) := by
  have hstop := elim_cast stop.given s.units.length (clamp_toI64 s.short)
  change stringSubstring s.units start stop = substringUnits s.units start stop ↔
    Paired (substringUnits s.units start stop)
  unfold stringSubstring substringUnits
  dsimp only
  rw [show utf16 (thisText s.units) = lossy s.units from rfl, toInt_eq, givenOr_eq, length_lossy,
    clamp_toI64 s.short, hstop]
  generalize start.place.within s.units.length = lo
  generalize stop.given.elim s.units.length (Place.within s.units.length) = hi
  by_cases hlt : (hi : ℤ) < lo
  · rw [if_pos hlt, Nat.min_eq_right (by omega), Nat.max_eq_left (by omega)]
    exact internLossy_range
  · rw [if_neg hlt, Nat.min_eq_left (by omega), Nat.max_eq_right (by omega)]
    exact internLossy_range

theorem substr_iff (s : JsString) (start length : Argument) :
    Computes (.substr s start length) ↔ Unaffected (.substr s start length) := by
  change stringSubstr s.units start length = substrUnits s.units start length ↔
    Paired (substrUnits s.units start length)
  unfold stringSubstr substrUnits
  dsimp only
  rw [show utf16 (thisText s.units) = lossy s.units from rfl, toIntOr_zero, givenOr_eq,
    length_lossy, clampIndex_toI64 (s.short.trans (by decide))]
  have hle := relative_le start.place s.units.length
  generalize start.place.relative s.units.length = lo at hle
  have hlength : (lo : ℤ) + length.given.elim ((s.units.length : ℤ) - lo)
        (fun p => min (max p.toI64 0) ((s.units.length : ℤ) - lo)) =
      (lo + min (length.given.elim s.units.length (Place.within s.units.length))
        (s.units.length - lo) : Nat) := by
    cases length.given with
    | none =>
      dsimp only [Option.elim_none]
      omega
    | some p =>
      have hclamp := clamp_toI64 s.short p
      unfold clamp at hclamp
      dsimp only [Option.elim_some]
      omega
  rw [hlength]
  generalize length.given.elim s.units.length (Place.within s.units.length) = n
  rw [← window_min s.units lo n]
  have hwindow := @internLossy_range s.units lo (lo + min n (s.units.length - lo))
  rw [Nat.add_sub_cancel_left] at hwindow
  exact hwindow

/-! ## §6 Longer texts -/

theorem stringConcat_eq (s : Units) (parts : List Units) :
    stringConcat s parts = lossy s ++ (parts.map lossy).flatten := by
  have hfold : ∀ text : List Char, utf16 (parts.foldl (fun text v => text ++ thisText v) text) =
      encode text ++ (parts.map lossy).flatten := by
    induction parts with
    | nil => exact fun text => (List.append_nil _).symm
    | cons t parts ih =>
      intro text
      rw [List.foldl_cons, ih, encode_append, List.map_cons, List.flatten_cons, List.append_assoc]
      rfl
  exact hfold (decode s)

theorem append_lossy_iff {x x' y y' : Units} (hlength : x.length = x'.length) :
    x ++ y = x' ++ y' ↔ x = x' ∧ y = y' := by
  constructor
  · exact fun h => List.append_inj h hlength
  · rintro ⟨rfl, rfl⟩
    rfl

theorem flatten_lossy_iff (parts : List Units) :
    (parts.map lossy).flatten = parts.flatten ↔ ∀ t ∈ parts, Paired t := by
  induction parts with
  | nil => simp
  | cons t parts ih =>
    rw [List.map_cons, List.flatten_cons, List.flatten_cons, append_lossy_iff (length_lossy t), ih,
      lossy_eq_self_iff, List.forall_mem_cons]

theorem concat_units_iff (s : Units) (parts : List Units) :
    stringConcat s parts = s ++ parts.flatten ↔ Paired s ∧ ∀ t ∈ parts, Paired t := by
  rw [stringConcat_eq, append_lossy_iff (length_lossy s), flatten_lossy_iff, lossy_eq_self_iff]

theorem concat_iff (s : JsString) (parts : List JsString) :
    Computes (.concat s parts) ↔ Unaffected (.concat s parts) := by
  change stringConcat s.units (parts.map JsString.units) = _ ↔ _
  rw [concat_units_iff, List.forall_mem_map]
  rfl

theorem rejoin_iff (s : JsString) (i : Double) :
    Computes (.rejoin s i) ↔ Unaffected (.rejoin s i) := by
  have hzero : (toPlace (.finite 0)).relative s.units.length = 0 := by
    unfold toPlace Place.relative
    dsimp only
    rw [truncate_zero]
    rfl
  have hle := relative_le (toPlace i) s.units.length
  have htake : stringSlice s.units (.number (.finite 0)) (.number i) =
      s.units.take ((toPlace i).relative s.units.length) := by
    rw [stringSlice_eq s _ (by intro h; cases h)]
    unfold sliceUnits
    dsimp only [Argument.place, Argument.given, Option.elim_some]
    rw [hzero]
    rfl
  have hdrop : stringSlice s.units (.number i) .absent =
      s.units.drop ((toPlace i).relative s.units.length) := by
    rw [stringSlice_eq s _ (by intro h; cases h)]
    unfold sliceUnits window
    dsimp only [Argument.place, Argument.given, Option.elim_none]
    rw [List.take_of_length_le]
    rw [List.length_drop]
  change stringConcat _ [_] = s.units ↔ _
  rw [htake, hdrop]
  have hconcat := concat_units_iff (s.units.take ((toPlace i).relative s.units.length))
    [s.units.drop ((toPlace i).relative s.units.length)]
  rw [List.flatten_cons, List.flatten_nil, List.append_nil, List.take_append_drop] at hconcat
  rw [hconcat, List.forall_mem_singleton]
  rfl

/-! ## §7 Repetition -/

theorem truncate_nonpos {q : ℚ} (h : q < 0) : truncate q ≤ 0 := by
  unfold truncate
  rw [if_pos h]
  exact Int.ceil_le.mpr (le_of_lt (by exact_mod_cast h))

theorem truncate_nonneg {q : ℚ} (h : 0 ≤ q) : 0 ≤ truncate q := by
  unfold truncate
  rw [if_neg (not_lt.mpr h)]
  exact Int.floor_nonneg.mpr h

theorem length_flatten_replicate {α : Type} (n : Nat) (t : List α) :
    (List.replicate n t).flatten.length = n * t.length := by
  induction n with
  | zero => simp
  | succ n ih => rw [List.replicate_succ, List.flatten_cons, List.length_append, ih, Nat.succ_mul,
      Nat.add_comm]

theorem getElem?_flatten_replicate {α : Type} {t : List α} {i : Nat} (h : i < n * t.length) :
    (List.replicate n t).flatten[i]? = t[i % t.length]? := by
  induction n generalizing i with
  | zero =>
    rw [Nat.zero_mul] at h
    exact absurd h (Nat.not_lt_zero i)
  | succ n ih =>
    rw [List.replicate_succ, List.flatten_cons]
    by_cases hi : i < t.length
    · rw [List.getElem?_append_left hi, Nat.mod_eq_of_lt hi]
    · rw [List.getElem?_append_right (by omega), Nat.mod_eq_sub_mod (by omega)]
      refine ih ?_
      rw [Nat.succ_mul] at h
      omega

theorem encode_flatten_replicate (n : Nat) (t : List Char) :
    encode (List.replicate n t).flatten = (List.replicate n (encode t)).flatten := by
  induction n with
  | zero => rfl
  | succ n ih =>
    rw [List.replicate_succ, List.flatten_cons, encode_append, ih, List.replicate_succ,
      List.flatten_cons]

theorem flatten_replicate_lossy_iff (n : Nat) (s : Units) :
    (List.replicate n (lossy s)).flatten = (List.replicate n s).flatten ↔ 0 < n → Paired s := by
  cases n with
  | zero => simp
  | succ n =>
    rw [List.replicate_succ, List.flatten_cons, List.replicate_succ, List.flatten_cons,
      append_lossy_iff (length_lossy s), lossy_eq_self_iff]
    constructor
    · exact fun h _ => h.1
    · intro h
      have hs := h (Nat.succ_pos n)
      rw [lossy_eq_self_iff.mpr hs]
      exact ⟨hs, rfl⟩

theorem repeatText_min (text : List Char) (n : Nat) :
    repeatText text (min n (2 ^ 64 - 1)) = repeatText text n := by
  by_cases hlarge : n ≤ 2 ^ 64 - 1
  · rw [Nat.min_eq_left hlarge]
  · rw [Nat.min_eq_right (by omega)]
    unfold repeatText
    cases text with
    | nil =>
      rw [if_pos (by decide), if_pos (by simp [Lib.Utf8.bytes])]
      have hempty : ∀ k, (List.replicate k ([] : List Char)).flatten = [] := by simp
      rw [hempty, hempty]
    | cons c text =>
      have hsize := Lib.Utf8.size_pos c
      have hpos : 1 ≤ (Lib.Utf8.bytes (c :: text)).length := by
        rw [Lib.Utf8.length_bytes_cons]
        omega
      have hmul : ∀ k, k ≤ (Lib.Utf8.bytes (c :: text)).length * k := fun k =>
        Nat.le_mul_of_pos_left k hpos
      have hsmall := hmul (2 ^ 64 - 1)
      have hlong := hmul n
      rw [if_neg (by omega), if_neg (by omega)]

theorem repeat_count (s : Units) {z : ℤ} (hz : 0 ≤ z) :
    (match repeatText (thisText s) (toU64 (.finite z)) with
      | some text => Answer.text (utf16 text)
      | none => .aborts) = .text (List.replicate z.toNat s).flatten ↔
    (0 < z → Paired s ∧ (Lib.Utf8.bytes (decode s)).length * z.toNat < 2 ^ 63) := by
  have hcount : toU64 (.finite z) = min z.toNat (2 ^ 64 - 1) := by
    change min (truncate (z : ℚ)).toNat (2 ^ 64 - 1) = _
    rw [Lib.Binary64.truncate_intCast]
  rw [hcount, repeatText_min]
  unfold repeatText thisText
  by_cases hfits : (Lib.Utf8.bytes (decode s)).length * z.toNat < 2 ^ 63
  · rw [if_pos hfits]
    change Answer.text (encode _) = _ ↔ _
    rw [encode_flatten_replicate, Answer.text.injEq]
    have hiff := flatten_replicate_lossy_iff z.toNat s
    change (List.replicate z.toNat (lossy s)).flatten = _ ↔ _
    rw [hiff]
    constructor
    · exact fun h hpos => ⟨h (by omega), hfits⟩
    · exact fun h hpos => (h (by omega)).1
  · rw [if_neg hfits]
    constructor
    · intro h
      cases h
    · intro h
      by_cases hzero : z = 0
      · subst hzero
        rw [Int.toNat_zero, Nat.mul_zero] at hfits
        exact absurd (by decide) hfits
      · exact absurd (h (by omega)).2 hfits

theorem repeat_iff (s : JsString) (count : Argument) :
    Computes (.repeat s count) ↔ Unaffected (.repeat s count) := by
  have hzero : ∀ {a : Argument}, a.place = .at 0 → ¬ Vanishes a → Unaffected (.repeat s a) := by
    intro a ha hnot
    refine ⟨hnot, ?_⟩
    intro z hz hpos
    rw [ha] at hz
    obtain rfl := Place.at.inj hz
    exact absurd hpos (lt_irrefl 0)
  cases count with
  | absent =>
    refine iff_of_true ?_ (hzero rfl (fun h => h))
    change stringRepeat s.units .absent = .text []
    exact (repeat_count s.units (le_refl 0)).mpr fun h => absurd h (lt_irrefl 0)
  | undefined => exact iff_of_true rfl (hzero rfl (fun h => h))
  | number x =>
    cases x with
    | nan => exact iff_of_true rfl (hzero rfl (fun h => h))
    | infinite negative =>
      have hunaffected : Unaffected (.repeat s (.number (.infinite negative))) := by
        refine ⟨fun h => h, ?_⟩
        intro z hz
        cases negative <;> cases hz
      refine iff_of_true ?_ hunaffected
      cases negative
      · exact ⟨_, rfl⟩
      · exact ⟨_, rfl⟩
    | finite q =>
      have hplace : (Argument.number (.finite q)).place = .at (truncate q) := rfl
      by_cases hneg : q < 0
      · have hthrows : stringRepeat s.units (.number (.finite q)) =
            .throws "RangeError: Invalid count value" := by
          unfold stringRepeat
          dsimp only
          rw [if_neg (by intro h; cases h), if_pos]
          rw [Bool.or_eq_true]
          exact .inl (decide_eq_true hneg)
        have hle := truncate_nonpos hneg
        by_cases hvanishes : truncate q = 0
        · refine iff_of_false ?_ fun h => h.1 ⟨hneg, hvanishes⟩
          change ¬ (if 0 ≤ truncate q then _ else _)
          rw [if_pos (by omega), hthrows]
          intro h
          cases h
        · refine iff_of_true ?_ ⟨fun h => hvanishes h.2, ?_⟩
          · change (if 0 ≤ truncate q then _ else _)
            rw [if_neg (by omega), hthrows]
            exact ⟨_, rfl⟩
          · intro z hz hpos
            obtain rfl := Place.at.inj hz
            omega
      · have hnonneg := truncate_nonneg (not_lt.mp hneg)
        have hcount := repeat_count s.units hnonneg
        have hrepeat : stringRepeat s.units (.number (.finite q)) =
            match repeatText (thisText s.units) (toU64 (.finite (truncate q))) with
            | some text => Answer.text (utf16 text)
            | none => .aborts := by
          unfold stringRepeat
          dsimp only
          rw [if_neg (by intro h; cases h), if_neg]
          · rfl
          · rw [Bool.or_eq_true, not_or]
            refine ⟨?_, ?_⟩
            · exact fun h => hneg (of_decide_eq_true h)
            · exact fun h => absurd (of_decide_eq_true h) Bool.noConfusion
        change (if 0 ≤ truncate q then _ else _) ↔ _
        rw [if_pos hnonneg, hrepeat, hcount]
        constructor
        · intro h
          refine ⟨fun hv => hneg hv.1, ?_⟩
          intro z hz
          obtain rfl := Place.at.inj hz
          exact h
        · intro h
          exact h.2 _ rfl

/-! ## §8 Padding -/

theorem padLoop_eq (hfill : fill ≠ []) (n : Nat) {turns : Nat} (k : Nat)
    (hturns : n ≤ (List.replicate k fill).flatten.length + turns) :
    ∃ k', padLoop fill n turns (List.replicate k fill).flatten = (List.replicate k' fill).flatten ∧
      n ≤ k' * fill.length := by
  have hpos : 0 < fill.length := List.length_pos_iff.mpr hfill
  induction turns generalizing k with
  | zero =>
    rw [length_flatten_replicate] at hturns
    exact ⟨k, rfl, by omega⟩
  | succ turns ih =>
    unfold padLoop
    split
    case isTrue =>
      have hnext : (List.replicate k fill).flatten ++ fill = (List.replicate (k + 1) fill).flatten := by
        rw [List.replicate_succ', List.flatten_append, List.flatten_cons, List.flatten_nil,
          List.append_nil]
      rw [hnext]
      refine ih (k + 1) ?_
      rw [length_flatten_replicate] at hturns ⊢
      rw [Nat.succ_mul]
      omega
    case isFalse h =>
      rw [length_flatten_replicate] at h
      exact ⟨k, rfl, by omega⟩

theorem getElem?_padding (hfill : fill ≠ []) (n i : Nat) :
    (padding fill n)[i]? = if i < n then fill[i % fill.length]? else none := by
  have hmod : i % fill.length < fill.length := Nat.mod_lt _ (List.length_pos_iff.mpr hfill)
  unfold padding
  rw [List.getElem?_map]
  split
  case isTrue hi =>
    rw [List.getElem?_range hi, Option.map_some, List.getD_eq_getElem?_getD,
      List.getElem?_eq_getElem hmod, Option.getD_some]
  case isFalse hi =>
    rw [List.getElem?_eq_none (by rw [List.length_range]; omega)]
    rfl

theorem length_padding (fill : Units) (n : Nat) : (padding fill n).length = n := by
  rw [padding, List.length_map, List.length_range]

theorem take_padLoop (hfill : fill ≠ []) (n : Nat) :
    (padLoop fill n n []).take n = padding fill n := by
  have hturns : n ≤ (List.replicate 0 fill).flatten.length + n := Nat.le_add_left _ _
  obtain ⟨k, hloop, hlong⟩ := padLoop_eq hfill n 0 hturns
  change padLoop fill n n [] = _ at hloop
  rw [hloop]
  refine List.ext_getElem? fun i => ?_
  rw [getElem?_padding hfill, List.getElem?_take]
  split
  case isTrue hi => exact getElem?_flatten_replicate (by omega)
  case isFalse => rfl

theorem not_unpaired_fill (hfill : fill ≠ []) {i : Nat} (hi : i < n) (h : Paired (padding fill n)) :
    ¬ Unpaired fill (i % fill.length) := by
  have hpos : 0 < fill.length := List.length_pos_iff.mpr hfill
  have hmod : i % fill.length < fill.length := Nat.mod_lt _ hpos
  have hhead : ¬ LowHead fill := by
    rintro ⟨w, hw, hlow⟩
    rw [List.head?_eq_getElem?] at hw
    refine not_lowHead_of_paired h ⟨w, ?_, hlow⟩
    rw [List.head?_eq_getElem?, getElem?_padding hfill, if_pos (by omega), Nat.zero_mod]
    exact hw
  rintro ⟨u, hu, hcase⟩
  refine h i ⟨u, ?_, ?_⟩
  · rw [getElem?_padding hfill, if_pos hi]
    exact hu
  · rcases hcase with ⟨hhigh, hnext⟩ | ⟨hlow, hbefore⟩
    · refine .inl ⟨hhigh, ?_⟩
      rintro ⟨w, hw, hlow⟩
      rw [getElem?_padding hfill] at hw
      split at hw
      case isFalse => cases hw
      case isTrue =>
        by_cases hlast : i % fill.length + 1 < fill.length
        · refine hnext ⟨w, ?_, hlow⟩
          rw [Nat.add_mod, Nat.mod_eq_of_lt (a := 1) (by omega), Nat.mod_eq_of_lt hlast] at hw
          exact hw
        · have hwrap : (i + 1) % fill.length = 0 := by
            rw [← Nat.mod_add_mod, show i % fill.length + 1 = fill.length by omega, Nat.mod_self]
          rw [hwrap] at hw
          refine hhead ⟨w, ?_, hlow⟩
          rw [List.head?_eq_getElem?]
          exact hw
    · refine .inr ⟨hlow, ?_⟩
      rintro ⟨w, hipos, hw, hhigh⟩
      by_cases hfirst : i % fill.length = 0
      · refine hhead ⟨u, ?_, hlow⟩
        rw [hfirst] at hu
        rw [List.head?_eq_getElem?]
        exact hu
      · refine hbefore ⟨w, by omega, ?_, hhigh⟩
        rw [getElem?_padding hfill, if_pos (by omega)] at hw
        have hprevious : (i - 1) % fill.length = i % fill.length - 1 := by
          have hsplit := Nat.div_add_mod i fill.length
          rw [show i - 1 = fill.length * (i / fill.length) + (i % fill.length - 1) by omega,
            Nat.mul_add_mod, Nat.mod_eq_of_lt (by omega)]
        rw [hprevious] at hw
        exact hw

theorem lossy_ne_nil (h : s ≠ []) : lossy s ≠ [] := by
  intro hnil
  refine h (List.eq_nil_of_length_eq_zero ?_)
  rw [← length_lossy, hnil]
  rfl

theorem lossy_padding_iff (hfill : fill ≠ []) (n : Nat) :
    lossy (padding (lossy fill) n) = padding fill n ↔ Paired (padding fill n) := by
  constructor
  · intro h
    rw [← h]
    exact paired_lossy _
  · intro h
    have hpadding : padding (lossy fill) n = padding fill n := by
      refine List.ext_getElem? fun i => ?_
      rw [getElem?_padding hfill, getElem?_padding (lossy_ne_nil hfill), length_lossy]
      split
      case isTrue hi => exact getElem?_lossy_of_paired (not_unpaired_fill hfill hi h)
      case isFalse => rfl
    rw [hpadding, lossy_eq_self_iff.mpr h]

theorem clampDouble_finite (q : ℚ) (lo hi : ℤ) : clampDouble (.finite q) lo hi =
    if q < lo then .finite lo else if (hi : ℚ) < q then .finite hi else .finite q := by
  have hlo : (Double.finite q).lt (Double.ofInt lo) = decide (q < lo) := rfl
  have hhi : (Double.ofInt hi).lt (Double.finite q) = decide ((hi : ℚ) < q) := rfl
  unfold clampDouble
  simp only [hlo, hhi, decide_eq_true_eq]
  rfl

theorem padTarget_eq (x : Double) :
    toU64 (clampDouble x 0 4294967295) = min (toLength (toPlace x)) 4294967295 := by
  cases x with
  | nan => rfl
  | infinite negative => cases negative <;> rfl
  | finite q =>
    have hcast : ∀ z : ℤ, toU64 (.finite z) = min z.toNat (2 ^ 64 - 1) := by
      intro z
      change min (truncate (z : ℚ)).toNat (2 ^ 64 - 1) = _
      rw [Lib.Binary64.truncate_intCast]
    rw [clampDouble_finite]
    change _ = min (min (truncate q).toNat (2 ^ 53 - 1)) 4294967295
    by_cases hneg : q < (0 : ℤ)
    · have hle := truncate_nonpos (by exact_mod_cast hneg)
      rw [if_pos hneg, hcast]
      omega
    · rw [if_neg hneg]
      have hfloor : truncate q = ⌊q⌋ := if_neg (by exact_mod_cast hneg)
      by_cases hlarge : ((4294967295 : ℤ) : ℚ) < q
      · have hle : 4294967295 ≤ truncate q := by
          rw [hfloor]
          exact Int.le_floor.mpr hlarge.le
        rw [if_pos hlarge, hcast]
        omega
      · have hle : truncate q ≤ 4294967295 := by
          have hfloorle := (Int.floor_le q).trans (not_lt.mp hlarge)
          rw [hfloor]
          exact_mod_cast hfloorle
        rw [if_neg hlarge]
        change min (truncate q).toNat (2 ^ 64 - 1) = _
        omega

theorem fill_units (fill : Option Units) : utf16 (padFill fill) = lossy (fillText fill) := by
  cases fill with
  | none => rfl
  | some v => rfl

theorem padTarget_place (target : Argument) :
    padTarget target = min (toLength target.place) 4294967295 := by
  cases target with
  | absent => rfl
  | undefined => exact padTarget_eq .nan
  | number x => exact padTarget_eq x

theorem pad_eq (s : Units) (target : Argument) (fill : Option Units) (start : Bool) :
    pad s target fill start =
      if padTarget target ≤ s.length ∨ fillText fill = [] then lossy s
      else
        let p := lossy (padding (lossy (fillText fill)) (padTarget target - s.length))
        if start then p ++ lossy s else lossy s ++ p := by
  have hempty : lossy (fillText fill) = [] ↔ fillText fill = [] := by
    constructor
    · intro h
      by_contra hne
      exact lossy_ne_nil hne h
    · intro h
      rw [h]
      rfl
  unfold pad
  dsimp only
  rw [show utf16 (thisText s) = lossy s from rfl, fill_units, length_lossy]
  simp only [hempty]
  by_cases hle : padTarget target ≤ s.length
  · rw [if_pos hle, if_pos (.inl hle)]
  · rw [if_neg hle]
    by_cases hnil : fillText fill = []
    · rw [if_pos hnil, if_pos (.inr hnil)]
    · rw [if_neg hnil, if_neg (not_or.mpr ⟨hle, hnil⟩), take_padLoop (lossy_ne_nil hnil)]
      cases start with
      | true => exact lossy_append_paired _ (paired_lossy s)
      | false => exact lossy_append_of_paired (paired_lossy s) _

theorem pad_iff (s : JsString) (target : Argument) (fill : Option Units) (start : Bool) :
    pad s.units target fill start = padUnits s.units target fill start ↔
      PadsFine s.units target fill := by
  have hshort := s.short
  rw [pad_eq, padTarget_place]
  unfold PadsFine
  by_cases hpads : Pads s.units target fill
  · have hunits : padUnits s.units target fill start =
        let p := padding (fillText fill) (toLength target.place - s.units.length)
        if start then p ++ s.units else s.units ++ p := if_pos hpads
    obtain ⟨hlt, hfill⟩ := hpads
    have hlossy := lossy_padding_iff hfill (toLength target.place - s.units.length)
    rw [hunits]
    by_cases hsmall : toLength target.place < 2 ^ 32
    · rw [Nat.min_eq_left (by omega), if_neg (not_or.mpr ⟨by omega, hfill⟩), ← hlossy,
        ← lossy_eq_self_iff]
      cases start with
      | true =>
        change _ ++ _ = _ ++ _ ↔ _
        rw [append_lossy_iff (by rw [length_lossy, length_padding, length_padding])]
        exact ⟨fun h => ⟨h.2, fun _ => ⟨hsmall, h.1⟩⟩, fun h => ⟨(h.2 ⟨hlt, hfill⟩).2, h.1⟩⟩
      | false =>
        change _ ++ _ = _ ++ _ ↔ _
        rw [append_lossy_iff (length_lossy _)]
        exact ⟨fun h => ⟨h.1, fun _ => ⟨hsmall, h.2⟩⟩, fun h => ⟨h.1, (h.2 ⟨hlt, hfill⟩).2⟩⟩
    · refine iff_of_false ?_ fun h => hsmall (h.2 ⟨hlt, hfill⟩).1
      intro h
      have hlength := congrArg List.length h
      revert hlength
      rw [Nat.min_eq_right (by omega)]
      split <;> cases start <;>
        simp only [List.length_append, length_lossy, length_padding, if_true, if_false,
          Bool.false_eq_true] <;> omega
  · have hunits : padUnits s.units target fill start = s.units := if_neg hpads
    rw [hunits, if_pos]
    · rw [lossy_eq_self_iff]
      exact ⟨fun h => ⟨h, fun hp => absurd hp hpads⟩, fun h => h.1⟩
    · by_contra hnot
      obtain ⟨hlong, hfill⟩ := not_or.mp hnot
      exact hpads ⟨by omega, hfill⟩

/-! ## §9 Character codes -/

/-- The cast of `fromCharCode`. -/
def saturate : Place → BitVec 16
  | .first => 0
  | .at z => BitVec.ofNat 16 (min z.toNat 65535)
  | .last => 65535

theorem saturate_eq (n : Double) : (if n = .nan then 0 else toU16 n) = saturate (toPlace n) := by
  cases n with
  | nan => rfl
  | infinite negative => cases negative <;> rfl
  | finite q => exact if_neg (by intro h; cases h)

theorem saturate_eq_iff (p : Place) : saturate p = toUint16 p ↔ CastsAlike p := by
  cases p with
  | first => exact iff_of_true rfl trivial
  | last => exact iff_of_false (by decide) (fun h => h)
  | «at» z =>
    unfold saturate toUint16 CastsAlike
    dsimp only
    rw [← BitVec.toNat_inj, BitVec.toNat_ofNat, BitVec.toNat_ofNat]
    omega

theorem not_surrogate_saturate {p : Place} (h : ¬ CastsAlike p) : ¬ IsSurrogate (saturate p) := by
  cases p with
  | first => exact absurd trivial h
  | last =>
    unfold IsSurrogate
    decide
  | «at» z =>
    have hends : min z.toNat 65535 = 0 ∨ min z.toNat 65535 = 65535 := by
      unfold CastsAlike at h
      dsimp only at h
      omega
    unfold saturate IsSurrogate
    dsimp only
    rcases hends with hend | hend <;> rw [hend] <;> decide

theorem fromCharCode_iff (codes : List Double) :
    Computes (.fromCharCode codes) ↔ Unaffected (.fromCharCode codes) := by
  have hcode : stringFromCharCode codes = lossy (codes.map fun n => saturate (toPlace n)) := by
    unfold stringFromCharCode
    rw [List.map_congr_left fun n _ => saturate_eq n]
    rfl
  have hmap : (∀ n ∈ codes, CastsAlike (toPlace n)) ↔
      (codes.map fun n => saturate (toPlace n)) = codes.map fun n => toUint16 (toPlace n) := by
    rw [List.map_inj_left]
    exact forall₂_congr fun n _ => (saturate_eq_iff _).symm
  change stringFromCharCode codes = (codes.map fun n => toUint16 (toPlace n)) ↔
    (∀ n ∈ codes, CastsAlike (toPlace n)) ∧ Paired (codes.map fun n => toUint16 (toPlace n))
  rw [hcode]
  constructor
  · intro h
    refine ⟨?_, h ▸ paired_lossy _⟩
    intro n hn
    by_contra hnot
    obtain ⟨i, hi, rfl⟩ := List.getElem_of_mem hn
    have hread : ∀ f : Double → BitVec 16, (codes.map f)[i]? = some (f codes[i]) := by
      intro f
      rw [List.getElem?_map, List.getElem?_eq_getElem hi, Option.map_some]
    have hunpaired : ¬ Unpaired (codes.map fun n => saturate (toPlace n)) i := by
      intro hunpaired
      obtain ⟨u, hu, hsurrogate⟩ := hunpaired.surrogate
      rw [hread] at hu
      obtain rfl := Option.some.inj hu
      exact not_surrogate_saturate hnot hsurrogate
    have heq := getElem?_lossy_of_paired hunpaired
    rw [h, hread, hread] at heq
    exact hnot ((saturate_eq_iff _).mp (Option.some.inj heq).symm)
  · rintro ⟨halike, hpaired⟩
    rw [hmap.mp halike, lossy_eq_self_iff.mpr hpaired]

theorem rebuild_iff (s : JsString) : Computes (.rebuild s) ↔ Unaffected (.rebuild s) := by
  have hcodes : (charCodes s.units).map (fun n => if n = .nan then 0 else toU16 n) =
      lossy s.units := by
    refine List.ext_getElem? fun i => ?_
    unfold charCodes
    rw [List.map_map, List.getElem?_map]
    by_cases hi : i < s.units.length
    · rw [List.getElem?_range hi, Option.map_some]
      have hlt : i < (lossy s.units).length := by
        rw [length_lossy]
        exact hi
      have hplace : (Argument.number (.finite (i : ℚ))).place = .at i := by
        change Place.at (truncate (i : ℚ)) = _
        have hcast := Lib.Binary64.truncate_intCast i
        rw [Int.cast_natCast] at hcast
        rw [hcast]
      have hunit : unitAt (lossy s.units) (.at i) = some (lossy s.units)[i] := by
        unfold unitAt
        dsimp only
        rw [if_pos (Int.natCast_nonneg i), Int.toNat_natCast, List.getElem?_eq_getElem hlt]
      change some (if (stringCharCodeAt s.units (.number (.finite (i : ℚ)))).toDouble = .nan then 0
        else toU16 (stringCharCodeAt s.units (.number (.finite (i : ℚ)))).toDouble) = _
      rw [stringCharCodeAt_eq, hplace, hunit, List.getElem?_eq_getElem hlt]
      generalize (lossy s.units)[i] = u
      change some (if Double.finite (u.toNat : ℚ) = .nan then 0 else toU16 (.finite (u.toNat : ℚ))) = _
      rw [if_neg (by intro h; cases h)]
      have hcast := Lib.Binary64.truncate_intCast u.toNat
      rw [Int.cast_natCast] at hcast
      unfold toU16
      dsimp only
      rw [hcast, Int.toNat_natCast, Nat.min_eq_left (Nat.le_of_lt_succ u.isLt), BitVec.ofNat_toNat,
        BitVec.setWidth_eq]
    · rw [List.getElem?_eq_none (by rw [List.length_range]; omega),
        List.getElem?_eq_none (by rw [length_lossy]; omega)]
      rfl
  have hcode : stringFromCharCode (charCodes s.units) = lossy s.units := by
    unfold stringFromCharCode
    rw [hcodes]
    exact lossy_lossy _
  change stringFromCharCode (charCodes s.units) = s.units ↔ Paired s.units
  rw [hcode, lossy_eq_self_iff]

/-! ## §10 The methods -/

/-- **A call computes the operation on code units** exactly if the condition holds. -/
theorem computes_iff (c : Call) : Computes c ↔ Unaffected c := by
  cases c with
  | charAt s pos => exact iff_of_true (stringCharAt_eq s pos) trivial
  | charCodeAt s pos => exact charCodeAt_iff s pos
  | «at» s index => exact at_iff s index
  | slice s start stop => exact slice_iff s start stop
  | substring s start stop => exact substring_iff s start stop
  | substr s start length => exact substr_iff s start length
  | concat s parts => exact concat_iff s parts
  | «repeat» s count => exact repeat_iff s count
  | padStart s target fill => exact pad_iff s target (fill.map JsString.units) true
  | padEnd s target fill => exact pad_iff s target (fill.map JsString.units) false
  | fromCharCode codes => exact fromCharCode_iff codes
  | rejoin s i => exact rejoin_iff s i
  | atCharAt s index => exact atCharAt_iff s index
  | rebuild s => exact rebuild_iff s

def surrogateString : JsString := ⟨[0xD800], by decide⟩

/-- Its first code is not that of U+FFFD. -/
theorem not_computes_charCodeAt : ¬ Computes (.charCodeAt surrogateString .absent) := by
  change ¬ stringCharCodeAt [0xD800] .absent = (unitAt [0xD800] (.at 0)).elim .nan .code
  decide

end V12.StringMethods
