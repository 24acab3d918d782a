/-
V12.Engine.RegExp — RegExp objects and the matching primitive, from
`v12-engine/src/builtins/regexp.rs`.

The matcher is the `regress` crate behind `v12-regex`; it is a parameter
(`Regex`). A RegExp object carries the texts of its two internal slots: interned
strings never change. `lastIndex` is kept as its `ToLength`.
-/
import Mathlib.Tactic.Common

namespace V12.Engine

abbrev Text := List Char

abbrev Units := List (BitVec 16)

/-! ## §1 Flags -/

/-- `v12_regex::Flags`. -/
structure Flags where
  global : Bool
  ignoreCase : Bool
  multiline : Bool
  dotAll : Bool
  unicode : Bool
  unicodeSets : Bool
  hasIndices : Bool
  sticky : Bool
  deriving DecidableEq

def Flags.none : Flags := ⟨false, false, false, false, false, false, false, false⟩

/-- The letters of a canonical flag string, in order. -/
def flagOrder : List Char := ['d', 'g', 'i', 'm', 's', 'u', 'v', 'y']

inductive FlagError where
  | invalid (c : Char)
  | duplicate (c : Char)
  deriving DecidableEq

/-- The scan of `canonicalize_flags`, `seen` holding the letters met. -/
def scanFlags : List Char → Text → Except FlagError (List Char)
  | seen, [] => .ok seen
  | seen, c :: rest =>
    if c ∉ flagOrder then .error (.invalid c)
    else if c ∈ seen then .error (.duplicate c)
    else scanFlags (c :: seen) rest

/-- `canonicalize_flags`: each letter once, in `flagOrder`. -/
def canonicalizeFlags (flags : Text) : Except FlagError Text :=
  (scanFlags [] flags).map fun seen => flagOrder.filter fun c => c ∈ seen

/-- One letter of `compile_pattern`. -/
def Flags.letter (f : Flags) : Char → Option Flags
  | 'd' => some { f with hasIndices := true }
  | 'g' => some { f with global := true }
  | 'i' => some { f with ignoreCase := true }
  | 'm' => some { f with multiline := true }
  | 's' => some { f with dotAll := true }
  | 'u' => some { f with unicode := true }
  | 'v' => some { f with unicodeSets := true }
  | 'y' => some { f with sticky := true }
  | _ => Option.none

/-- The flag loop of `compile_pattern`, or the first letter it rejects. -/
def Flags.parse : Flags → Text → Except Char Flags
  | f, [] => .ok f
  | f, c :: rest =>
    match f.letter c with
    | some f' => Flags.parse f' rest
    | Option.none => .error c

/-! ## §2 The matcher -/

/-- `v12_regex::Match`: the whole span and the groups, in code units. -/
structure Match where
  start : Nat
  stop : Nat
  groups : List (Option (Nat × Nat))
  deriving DecidableEq

/-- The `regress` crate: compilation and a search from an index on. -/
structure Regex (P : Type) where
  compile : Text → Flags → Except Text P
  exec : P → Units → Nat → Option Match

inductive CompileError where
  | flag (c : Char)
  | message (text : Text)
  deriving DecidableEq

/-- `compile_pattern`. -/
def compilePattern {P : Type} (rx : Regex P) (source flags : Text) : Except CompileError P :=
  match Flags.parse .none flags with
  | .error c => .error (.flag c)
  | .ok f => (rx.compile source f).mapError .message

/-! ## §3 RegExp objects -/

/-- The internal slots and the own `lastIndex` property. -/
structure RegExpObject where
  source : Text
  flags : Text
  lastIndex : Nat
  writable : Bool
  deriving DecidableEq

inductive Throw where
  /-- `Cannot assign to read only property 'lastIndex'`. -/
  | readOnlyLastIndex
  | flags (e : FlagError)
  | compile (e : CompileError)
  deriving DecidableEq

namespace RegExpObject

/-- The object `alloc_regexp` files: `lastIndex` starts at 0, writable. -/
def new (source flags : Text) : RegExpObject := ⟨source, flags, 0, true⟩

def has (o : RegExpObject) (flag : Char) : Bool := flag ∈ o.flags

/-- `set_last_index`. -/
def setLastIndex (o : RegExpObject) (v : Nat) : Except Throw RegExpObject :=
  if o.writable then .ok { o with lastIndex := v } else .error .readOnlyLastIndex

/-- A `Set` that throws leaves the object as it was. -/
def setting (o : RegExpObject) (v : Nat) (result : Option Match) :
    RegExpObject × Except Throw (Option Match) :=
  match o.setLastIndex v with
  | .ok o' => (o', .ok result)
  | .error e => (o, .error e)

/-- `global` or `sticky`: the flags under which `lastIndex` counts. -/
def tracks (o : RegExpObject) : Bool := o.has 'g' || o.has 'y'

/-- Where an `exec` starts to search. -/
def startIndex (o : RegExpObject) : Nat := if o.tracks then o.lastIndex else 0

/-- `regexp_exec` past the bounds test, with the program `compile_for` answers. -/
def runProgram {P : Type} (rx : Regex P) (compiled : Except CompileError P) (o : RegExpObject)
    (input : Units) : RegExpObject × Except Throw (Option Match) :=
  match compiled with
  | .error e => (o, .error (.compile e))
  | .ok program =>
    match rx.exec program input o.startIndex with
    | none => if o.tracks then o.setting 0 none else (o, .ok none)
    | some m =>
      if o.has 'y' && m.start != o.startIndex then o.setting 0 none
      else if o.tracks then
        o.setting (if m.stop = m.start then m.start + 1 else m.stop) (some m)
      else (o, .ok (some m))

/-- A `lastIndex` past the input fails before the program is looked up. -/
def pastEnd (o : RegExpObject) (input : Units) : Bool := o.startIndex > input.length

/-- `regexp_exec`. -/
def exec {P : Type} (rx : Regex P) (compiled : Except CompileError P) (o : RegExpObject)
    (input : Units) : RegExpObject × Except Throw (Option Match) :=
  if o.pastEnd input then
    if o.tracks then o.setting 0 none else (o, .ok none)
  else o.runProgram rx compiled input

/-! ## §4 What an `exec` leaves alone -/

theorem setting_slots (o : RegExpObject) (v : Nat) (result : Option Match) :
    (o.setting v result).1.source = o.source ∧ (o.setting v result).1.flags = o.flags := by
  unfold setting setLastIndex
  cases o.writable <;> exact ⟨rfl, rfl⟩

theorem runProgram_slots {P : Type} (rx : Regex P) (compiled : Except CompileError P)
    (o : RegExpObject) (input : Units) :
    (o.runProgram rx compiled input).1.source = o.source ∧
      (o.runProgram rx compiled input).1.flags = o.flags := by
  unfold runProgram
  cases compiled with
  | error e => exact ⟨rfl, rfl⟩
  | ok program =>
    cases hm : rx.exec program input o.startIndex with
    | none =>
      simp only [hm]
      split
      case isTrue => exact setting_slots o 0 none
      case isFalse => exact ⟨rfl, rfl⟩
    | some m =>
      simp only [hm]
      split
      case isTrue => exact setting_slots o 0 none
      case isFalse =>
        split
        case isTrue => exact setting_slots o _ _
        case isFalse => exact ⟨rfl, rfl⟩

theorem exec_slots {P : Type} (rx : Regex P) (compiled : Except CompileError P)
    (o : RegExpObject) (input : Units) :
    (o.exec rx compiled input).1.source = o.source ∧
      (o.exec rx compiled input).1.flags = o.flags := by
  unfold exec
  split
  case isTrue =>
    split
    case isTrue => exact setting_slots o 0 none
    case isFalse => exact ⟨rfl, rfl⟩
  case isFalse => exact runProgram_slots rx compiled o input

end RegExpObject

end V12.Engine
