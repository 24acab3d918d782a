/-
V12.Engine.StringRegExp — `String.prototype.match`, `matchAll`, `replace`,
`search` and `split` on a RegExp (`v12-engine/src/builtins/string.rs`), and the
`Symbol` methods of the same names (`regexp.rs`).

The two families are separate code. The loops take fuel, and `none` means that
it ran out. A replacement is a string: callable ones go through the interpreter.
-/
import V12.Engine.RegExp
import V12.Lib.Utf16

namespace V12.Engine

open Lib.Utf16

variable {P : Type}

/-! ## §1 What both families share -/

inductive MethodThrow where
  | exec (e : Throw)
  /-- `String.prototype.matchAll requires a global RegExp`. -/
  | notGlobal
  /-- `replace result exceeds maximum string length`. -/
  | tooLong
  /-- From `SpeciesConstructor`. -/
  | species
  deriving DecidableEq

/-- A method's answer; the match arrays are kept as the matches they show. -/
inductive Value where
  | null
  | matchArray (m : Match)
  | strings (pieces : List Units)
  | string (s : Units)
  | number (n : Int)
  | matchArrays (ms : List Match)
  | arrayIterator (ms : List Match)
  deriving DecidableEq

abbrev Answer (α : Type) := Option (RegExpObject × Except MethodThrow α)

def Answer.mapOk {α β : Type} (f : α → β) (a : Answer α) : Answer β :=
  Option.map (fun (o, r) => (o, r.map f)) a

def Answer.keeping {α : Type} (o : RegExpObject) (a : Answer α) : Answer α :=
  Option.map (fun (_, r) => (o, r)) a

/-- `text_h`: the subject as `exec` gets it. -/
def subject (s : Units) : Units := encode (decode s)

/-- `regexp_exec` with the program of the object's own slots. -/
def runExec (rx : Regex P) (o : RegExpObject) (input : Units) :
    RegExpObject × Except MethodThrow (Option Match) :=
  let (o, r) := o.exec rx (compilePattern rx o.source o.flags) input
  (o, r.mapError .exec)

/-- `set_last_index`. -/
def writeLastIndex (o : RegExpObject) (v : Nat) : RegExpObject × Except MethodThrow Unit :=
  match o.setLastIndex v with
  | .ok o' => (o', .ok ())
  | .error e => (o, .error (.exec e))

/-- An element of `match_result`: unit by unit. -/
def elementText (input : Units) (start stop : Nat) : Text := (slice input start stop).map unitChar

def Match.whole (m : Match) (input : Units) : Text := elementText input m.start m.stop

def Match.captures (m : Match) (input : Units) : List (Option Text) :=
  m.groups.map fun g => g.map fun (start, stop) => elementText input start stop

/-- `as_smi`, for indices. -/
def asSmi (n : Nat) : Option Nat := if n < 2 ^ 30 then some n else none

def execValue : Option Match → Value
  | some m => .matchArray m
  | none => .null

/-! ## §2 `String.prototype` -/

/-- `MatchSpan`: byte offsets, and the groups 1 to 9. -/
structure MatchSpan where
  start : Nat
  stop : Nat
  groups : List (Option Text)

def matchSpan (text : Text) (input : Units) (m : Match) : MatchSpan :=
  let start := byteOffset text ((asSmi m.start).getD 0)
  { start
    stop := ceilBoundary text (min (start + byteLen (m.whole input)) (byteLen text))
    groups := (List.range 9).map fun i => (m.captures input)[i]?.join }

/-- `collect_match_spans`. -/
def collectMatchSpans (rx : Regex P) (text : Text) (input : Units) (global : Bool) :
    Nat → RegExpObject → Nat → Answer (List MatchSpan)
  | 0, _, _ => none
  | fuel + 1, o, start =>
    match runExec rx o input with
    | (o, .error e) => some (o, .error e)
    | (o, .ok none) => some (o, .ok [])
    | (o, .ok (some m)) =>
      let lastIndex := o.lastIndex
      -- the zero-width guard
      match if lastIndex ≤ start then writeLastIndex o (start + 1) else (o, .ok ()) with
      | (o, .error e) => some (o, .error e)
      | (o, .ok ()) =>
        if lastIndex > unitLen text || !global then some (o, .ok [matchSpan text input m])
        else (collectMatchSpans rx text input global fuel o lastIndex).mapOk
          (matchSpan text input m :: ·)

/-- `string_match`. -/
def stringMatch (rx : Regex P) (fuel : Nat) (o : RegExpObject) (s : Units) : Answer Value :=
  let text := decode s
  if o.has 'g' then
    (collectMatchSpans rx text (subject s) true fuel o 0).mapOk fun spans =>
      if spans.isEmpty then .null
      else .strings (spans.map fun span => encode (sliceBytes text span.start span.stop))
  else
    let (o, r) := runExec rx o (subject s)
    some (o, r.map execValue)

/-- `MAX_REPLACE_LEN`. -/
def maxReplaceLen : Nat := 2 ^ 28

/-- What `$0`–`$9` stands for. -/
def groupText (whole : Text) (groups : List Text) (idx : Nat) : Text :=
  if idx = 0 then whole else groups[idx - 1]?.getD []

/-- `expand_replacement`: the template behind the `$` it looks at. -/
def expandReplacement (whole : Text) (groups : List Text) : Text → Text
  | [] => []
  | '$' :: c :: rest =>
    if c = '$' then '$' :: expandReplacement whole groups rest
    else if c = '&' then whole ++ expandReplacement whole groups rest
    else if c.isDigit then
      groupText whole groups (c.toNat - '0'.toNat) ++ expandReplacement whole groups rest
    else '$' :: c :: expandReplacement whole groups rest
  | c :: rest => c :: expandReplacement whole groups rest

/-- `expanded_len`. -/
def expandedLen (whole : Text) (groups : List Text) : Text → Nat
  | [] => 0
  | '$' :: c :: rest =>
    if c = '$' then 1 + expandedLen whole groups rest
    else if c = '&' then byteLen whole + expandedLen whole groups rest
    else if c.isDigit then
      byteLen (groupText whole groups (c.toNat - '0'.toNat)) + expandedLen whole groups rest
    else 1 + c.utf8Size + expandedLen whole groups rest
  | c :: rest => c.utf8Size + expandedLen whole groups rest

/-- The splicing loop of `string_replace`. -/
def spliceSpans (text template : Text) : List MatchSpan → Text → Nat → Except MethodThrow Text
  | [], out, cursor => .ok (out ++ dropBytes text cursor)
  | span :: spans, out, cursor =>
    let whole := sliceBytes text span.start span.stop
    let groups := span.groups.map (·.getD [])
    if byteLen out + (span.start - cursor) + expandedLen whole groups template > maxReplaceLen then
      .error .tooLong
    else
      spliceSpans text template spans (out ++ sliceBytes text cursor span.start ++
        expandReplacement whole groups template) span.stop

/-- `string_replace`. -/
def stringReplace (rx : Regex P) (fuel : Nat) (o : RegExpObject) (s : Units) (template : Text) :
    Answer Value :=
  (collectMatchSpans rx (decode s) (subject s) (o.has 'g') fuel o 0).bind fun (o, r) =>
    match r with
    | .error e => some (o, .error e)
    -- the receiver itself, not its text
    | .ok [] => some (o, .ok (.string s))
    | .ok spans =>
      some (o, (spliceSpans (decode s) template spans [] 0).map fun out => .string (encode out))

/-- `string_search`. -/
def stringSearch (rx : Regex P) (o : RegExpObject) (s : Units) : Answer Value :=
  let (o, r) := runExec rx o (subject s)
  some (o, r.map fun
    | none => .number (-1)
    | some m => .number ((asSmi m.start).getD 0))

/-- The loop of `string_match_all`. -/
def collectMatches (rx : Regex P) (input : Units) : Nat → RegExpObject → Nat → Answer (List Match)
  | 0, _, _ => none
  | fuel + 1, o, start =>
    match runExec rx o input with
    | (o, .error e) => some (o, .error e)
    | (o, .ok none) => some (o, .ok [])
    | (o, .ok (some m)) =>
      let lastIndex := o.lastIndex
      match if lastIndex ≤ start then writeLastIndex o (start + 1) else (o, .ok ()) with
      | (o, .error e) => some (o, .error e)
      | (o, .ok ()) =>
        if lastIndex > input.length then some (o, .ok [m])
        else (collectMatches rx input fuel o lastIndex).mapOk (m :: ·)

/-- `string_match_all`. -/
def stringMatchAll (rx : Regex P) (fuel : Nat) (o : RegExpObject) (s : Units) : Answer Value :=
  if o.has 'g' then
    match writeLastIndex o 0 with
    | (o, .error e) => some (o, .error e)
    | (o, .ok ()) => (collectMatches rx (subject s) fuel o 0).mapOk .arrayIterator
  else some (o, .error .notGlobal)

/-- The second argument of `split`: missing or `undefined`, a small integer, or
any other value, by the piece count it is coerced to. -/
inductive Limit where
  | absent
  | smi (n : Int)
  | other (pieces : Nat)

/-- `string_split` reads small integers only. -/
def Limit.ofSmi : Limit → Nat
  | .smi n => n.toNat
  | .absent | .other _ => 2 ^ 63 - 1

def piecesBetween (text : Text) : List MatchSpan → Nat → List Text
  | [], cursor => [dropBytes text cursor]
  | span :: spans, cursor =>
    sliceBytes text cursor span.start :: piecesBetween text spans span.stop

/-- `string_split`: without `g` it runs a clone with the flag. -/
def stringSplit (rx : Regex P) (fuel : Nat) (o : RegExpObject) (s : Units) (limit : Limit) :
    Answer Value :=
  let pieces : List MatchSpan → Value := fun spans =>
    .strings (((piecesBetween (decode s) spans 0).take limit.ofSmi).map encode)
  if o.has 'g' then (collectMatchSpans rx (decode s) (subject s) true fuel o 0).mapOk pieces
  else
    let splitter := RegExpObject.new o.source (o.flags ++ ['g'])
    ((collectMatchSpans rx (decode s) (subject s) true fuel splitter 0).mapOk pieces).keeping o

/-! ## §3 `RegExp.prototype[Symbol.*]` -/

/-- The matches of the loop of `@@match` and `@@matchAll`. -/
def drain (rx : Regex P) (input : Units) (global : Bool) : Nat → RegExpObject → Answer (List Match)
  | 0, _ => none
  | fuel + 1, o =>
    match runExec rx o input with
    | (o, .error e) => some (o, .error e)
    | (o, .ok none) => some (o, .ok [])
    | (o, .ok (some m)) =>
      if global then (drain rx input global fuel o).mapOk (m :: ·) else some (o, .ok [m])

/-- `regexp_symbol_match`. -/
def symbolMatch (rx : Regex P) (fuel : Nat) (o : RegExpObject) (s : Units) : Answer Value :=
  if o.has 'g' then
    match writeLastIndex o 0 with
    | (o, .error e) => some (o, .error e)
    | (o, .ok ()) => (drain rx (subject s) true fuel o).mapOk fun ms =>
      if ms.isEmpty then .null else .strings (ms.map fun m => encode (m.whole (subject s)))
  else
    let (o, r) := runExec rx o (subject s)
    some (o, r.map execValue)

/-- `regexp_symbol_search`. -/
def symbolSearch (rx : Regex P) (o : RegExpObject) (s : Units) : Answer Value :=
  let previous := o.lastIndex
  match writeLastIndex o 0 with
  | (o, .error e) => some (o, .error e)
  | (o, .ok ()) =>
    let (o, r) := runExec rx o (subject s)
    match writeLastIndex o previous with
    | (o, .error e) => some (o, .error e)
    | (o, .ok ()) => some (o, r.map fun
      | none => .number (-1)
      | some m => .number m.start)

/-- `regexp_symbol_match_all`; `defaultSpecies` answers `SpeciesConstructor`. -/
def symbolMatchAll (rx : Regex P) (defaultSpecies : Except MethodThrow Bool) (fuel : Nat)
    (o : RegExpObject) (s : Units) : Answer Value :=
  match defaultSpecies with
  | .error e => some (o, .error e)
  | .ok isDefault =>
    let arrays : List Match → Value := fun ms => if ms.isEmpty then .null else .matchArrays ms
    if isDefault then
      let source := if o.source.isEmpty then "(?:)".toList else o.source
      match writeLastIndex (.new source o.flags) o.lastIndex with
      | (_, .error e) => some (o, .error e)
      | (matcher, .ok ()) =>
        ((drain rx (subject s) (o.has 'g') fuel matcher).mapOk arrays).keeping o
    else
      match writeLastIndex o o.lastIndex with
      | (o, .error e) => some (o, .error e)
      | (o, .ok ()) => (drain rx (subject s) (o.has 'g') fuel o).mapOk arrays

/-- `get_substitution`; the offsets of the prefix and the suffix are used as byte
offsets. -/
def getSubstitution (matched : Text) (captures : List (Option Text)) (position : Nat)
    (input : Text) : Text → Text
  | [] => []
  | '$' :: c :: rest =>
    if c = '$' then '$' :: getSubstitution matched captures position input rest
    else if c = '&' then matched ++ getSubstitution matched captures position input rest
    else if c = '\x60' then takeBytes input position ++
      getSubstitution matched captures position input rest
    else if c = '\x27' then dropBytes input (position + byteLen matched) ++
      getSubstitution matched captures position input rest
    else if c.isDigit then
      let n := c.toNat - '0'.toNat
      match rest with
      | d :: rest' =>
        let two := n * 10 + (d.toNat - '0'.toNat)
        if d.isDigit ∧ 1 ≤ two ∧ two ≤ captures.length then
          captureText captures two ++ getSubstitution matched captures position input rest'
        else captureText captures n ++ getSubstitution matched captures position input (d :: rest')
      | [] => captureText captures n
    else '$' :: getSubstitution matched captures position input (c :: rest)
  | c :: rest => c :: getSubstitution matched captures position input rest
where
  captureText (captures : List (Option Text)) (n : Nat) : Text :=
    if n = 0 then [] else (captures[n - 1]?.join).getD []

/-- The loop of `regexp_symbol_replace`. -/
def replaceLoop (rx : Regex P) (text : Text) (input : Units) (template : Text) (global : Bool) :
    Nat → RegExpObject → Text → Nat → Answer Text
  | 0, _, _, _ => none
  | fuel + 1, o, out, cursor =>
    match runExec rx o input with
    | (o, .error e) => some (o, .error e)
    | (o, .ok none) => some (o, .ok (out ++ decode (input.drop cursor)))
    | (o, .ok (some m)) =>
      let whole := m.whole input
      let a := min m.start input.length
      let b := min (a + unitLen whole) input.length
      if a < cursor then
        if global then replaceLoop rx text input template global fuel o out cursor
        else some (o, .ok (out ++ decode (input.drop cursor)))
      else
        let out := out ++ decode (slice input cursor a) ++
          getSubstitution whole (m.captures input) a text template
        if global then replaceLoop rx text input template global fuel o out b
        else some (o, .ok (out ++ decode (input.drop b)))

/-- `regexp_symbol_replace`. -/
def symbolReplace (rx : Regex P) (fuel : Nat) (o : RegExpObject) (s : Units) (template : Text) :
    Answer Value :=
  match if o.has 'g' then writeLastIndex o 0 else (o, .ok ()) with
  | (o, .error e) => some (o, .error e)
  | (o, .ok ()) =>
    (replaceLoop rx (decode s) (subject s) template (o.has 'g') fuel o [] 0).mapOk fun out =>
      .string (encode out)

/-- `advance`. -/
def advance (flags : Text) (input : Units) (index : Nat) : Nat :=
  let next := min (index + 1) input.length
  if ('u' ∈ flags ∨ 'v' ∈ flags) ∧ next < input.length ∧ ∃ u ∈ input[index]?, IsHigh u then next + 1
  else next

/-- `split_match`: a search from `q` on, with `y` among the flags. -/
def splitMatch (rx : Regex P) (o : RegExpObject) (input : Units) (q : Nat) :
    RegExpObject × Except MethodThrow (Option Match) :=
  match compilePattern rx o.source (if o.has 'y' then o.flags else o.flags ++ ['y']) with
  | .error e => (o, .error (.exec (.compile e)))
  | .ok program =>
    match rx.exec program input q with
    | none => (o, .ok none)
    | some m =>
      match writeLastIndex o (max m.stop (q + 1)) with
      | (o, .error e) => (o, .error e)
      | (o, .ok ()) => (o, .ok (some m))

def pushCaptures (limit : Nat) : List Units → List (Option Text) → List Units
  | items, [] => items
  | items, none :: captures => pushCaptures limit items captures
  | items, some capture :: captures =>
    let items := items ++ [encode capture]
    if items.length = limit then items else pushCaptures limit items captures

/-- The captures of a split match: joined pairs, unlike those of `exec`. -/
def splitCaptures (input : Units) (m : Match) : List (Option Text) :=
  m.groups.map fun g => g.map fun (start, stop) => decode (slice input start stop)

/-- The cursor loop of `regexp_symbol_split`. -/
def splitLoop (rx : Regex P) (input : Units) (limit : Nat) :
    Nat → RegExpObject → List Units → Nat → Nat → Answer (List Units)
  | 0, _, _, _, _ => none
  | fuel + 1, o, items, p, q =>
    if q < input.length ∧ items.length < limit then
      match splitMatch rx o input q with
      | (o, .error e) => some (o, .error e)
      | (o, .ok none) => splitLoop rx input limit fuel o items p (advance o.flags input q)
      | (o, .ok (some m)) =>
        let len := m.stop - m.start
        if m.start < q then splitLoop rx input limit fuel o items p (advance o.flags input q)
        else
          let stop := min (m.start + len) input.length
          let items := items ++ [slice input p m.start]
          if items.length = limit then some (o, .ok items)
          else
            let items := if len > 0 then pushCaptures limit items (splitCaptures input m) else items
            if items.length = limit then some (o, .ok items)
            else splitLoop rx input limit fuel o items stop
              (if len = 0 then advance o.flags input m.start else stop)
    else some (o, .ok (items ++ [input.drop p]))

/-- `ToNumber` of the limit, and the cap. -/
def Limit.toCount : Limit → Nat
  | .absent => 2 ^ 32 - 1
  | .smi n => n.toNat
  | .other pieces => pieces

/-- `regexp_symbol_split`. -/
def symbolSplit (rx : Regex P) (species : Except MethodThrow Bool) (fuel : Nat) (o : RegExpObject)
    (s : Units) (limit : Limit) : Answer Value :=
  match species with
  | .error e => some (o, .error e)
  | .ok _ =>
    if limit.toCount = 0 then some (o, .ok (.strings []))
    else if o.source = "(?:)".toList ∨ o.source = [] then
      some (o, .ok (.strings (((subject s).take limit.toCount).map fun u => [u])))
    else (splitLoop rx (subject s) limit.toCount fuel o [] 0 0).mapOk .strings

end V12.Engine
