/-
V12.Bccompiler.Peephole — the post-pass of `v12-bccompiler/src/peephole.rs`.

A round marks words to delete (folded literal triples, branches to the next
header), compacts the stream once, and threads jumps through unconditional
jumps; `remap` and `thread` go over every word of the stream, as the source
does. The pass reads neither the source spans nor their type.
-/
import V12.Bytecode.Function
import V12.Bytecode.Wide

namespace V12.Bccompiler

open V12.Bytecode

/-- The parts of a function the pass reads and writes. -/
structure Code (σ : Type) where
  instrs : List Instr
  spans : List σ
  handlers : List HandlerRange

/-- `MAX_ROUNDS`. -/
def maxRounds : Nat := 8

/-! ## §1 Layout -/

/-- `word_width`: only `Wide` carries a payload. -/
def wordWidth (words : List Instr) : Nat :=
  match words with
  | [] => 1
  | word :: _ =>
    match word.op with
    | some .wide =>
      match WideOp.tryDecode words with
      | .ok (_, width) => width
      | .error _ => 1
    | _ => 1

/-- `width_of`, with `skip` payload words left of the current header: a header
carries its word count, payload words hold 0. -/
def widthsFrom : Nat → List Instr → List Nat
  | _, [] => []
  | 0, word :: rest => wordWidth (word :: rest) :: widthsFrom (wordWidth (word :: rest) - 1) rest
  | skip + 1, _ :: rest => 0 :: widthsFrom skip rest

def widths (instrs : List Instr) : List Nat := widthsFrom 0 instrs

/-! ## §2 Constant folding -/

/-- `imm8`: the sign-extended immediate of a `LoadInt`. -/
def imm8 (word : Instr) : Int := word.c.toInt

/-- The folded value, when an `i8` holds it. -/
def foldValue (op : Opcode) (a b : Int) : Option Int :=
  let value :=
    match op with
    | .add => some (a + b)
    | .sub => some (a - b)
    | .mul => some (a * b)
    | _ => none
  value.filter fun v => -128 ≤ v ∧ v ≤ 127

/-- The `LoadInt` that stands for `[LoadInt rX][LoadInt rY][op3 rZ …]`. -/
def foldTriple (w1 w2 w3 : Instr) : Option Instr :=
  match w3.op with
  | none => none
  | some op3 =>
    if w1.op = some .loadInt ∧ w2.op = some .loadInt ∧
        (op3 = .add ∨ op3 = .sub ∨ op3 = .mul) then
      let value :=
        if w3.b = w1.a ∧ w3.c = w2.a then foldValue op3 (imm8 w1) (imm8 w2)
        else if (op3 = .add ∨ op3 = .mul) ∧ w3.b = w2.a ∧ w3.c = w1.a then
          foldValue op3 (imm8 w2) (imm8 w1)
        else none
      value.map fun v => Instr.new .loadInt w3.a 0 (BitVec.ofInt 8 v)
    else none

/-- The words and the deletion marks of a round. -/
structure Marks where
  instrs : List Instr
  keep : List Bool

/-- The folded word of the triple around `i`, its loads kept so far and its words
headers of one word. -/
def foldedWord (widths : List Nat) (m : Marks) (i : Nat) : Option Instr :=
  match m.instrs[i - 1]?, m.instrs[i]?, m.instrs[i + 1]? with
  | some w1, some w2, some w3 =>
    if m.keep[i]? = some true ∧ m.keep[i - 1]? = some true ∧ widths[i]? = some 1 ∧
        widths[i - 1]? = some 1 ∧ widths[i + 1]? ≠ some 0 then
      foldTriple w1 w2 w3
    else none
  | _, _, _ => none

/-- One turn of the folding loop: rewrite at `i - 1`, delete `i` and `i + 1`. -/
def foldAt (widths : List Nat) (m : Marks) (i : Nat) : Marks :=
  match foldedWord widths m i with
  | none => m
  | some word => ⟨m.instrs.set (i - 1) word, (m.keep.set i false).set (i + 1) false⟩

/-- The folding loop: `i` from 1 to the third word from the end. -/
def foldConstants (widths : List Nat) (m : Marks) : Marks :=
  (List.range' 1 (m.instrs.length - 3)).foldl (foldAt widths) m

/-! ## §3 Dead branches -/

/-- The header after `h`; the last one is followed by the end of the stream. -/
def nextHeader (widths : List Nat) (h : Nat) : Nat :=
  ((List.range' (h + 1) (widths.length - (h + 1))).find? fun i =>
    decide (widths[i]? ≠ some 0)).getD widths.length

def deadBranch (widths : List Nat) (instrs : List Instr) (h : Nat) : Bool :=
  match instrs[h]? with
  | none => false
  | some word =>
    widths[h]? ≠ some 0 &&
      match word.op with
      | some .jump => word.imm24.toNat == nextHeader widths h
      | some .jumpIfFalse | some .jumpIfTrue => word.imm16.toNat == nextHeader widths h
      | _ => false

def spreadFrom : Bool → List Nat → List Bool → List Bool
  | header, w :: ws, k :: ks =>
    if w = 0 then header :: spreadFrom header ws ks else k :: spreadFrom k ws ks
  | _, [], _ | _, _, [] => []

def markRound (instrs : List Instr) : Marks :=
  let ws := widths instrs
  let m := foldConstants ws ⟨instrs, List.replicate instrs.length true⟩
  ⟨m.instrs, spreadFrom true ws (m.keep.mapIdx fun h k => k && !deadBranch ws m.instrs h)⟩

/-! ## §4 Compaction -/

/-- `map[i]`: the kept words in front of `i`. -/
def newIndex (keep : List Bool) (i : Nat) : Nat := (keep.take i).count true

def compact {α : Type} (keep : List Bool) (items : List α) : List α :=
  ((items.zip keep).filter fun e => e.2).map Prod.fst

/-- A word that reads as a branch gets its target mapped. -/
def remap (keep : List Bool) (word : Instr) : Instr :=
  match word.op with
  | some .jump =>
    word.setImm24 (BitVec.ofNat 32 (newIndex keep (min word.imm24.toNat keep.length)))
  | some .jumpIfFalse | some .jumpIfTrue | some .jumpIfNullish =>
    word.setImm16 (BitVec.ofNat 16 (newIndex keep (min word.imm16.toNat keep.length)))
  | _ => word

def remapHandler (keep : List Bool) (h : HandlerRange) : HandlerRange :=
  { h with
    start := newIndex keep h.start
    stop := newIndex keep h.stop
    target := newIndex keep h.target }

def compactCode {σ : Type} (m : Marks) (spans : List σ) (handlers : List HandlerRange) : Code σ where
  instrs := (compact m.keep m.instrs).map (remap m.keep)
  spans := compact m.keep spans
  handlers := (handlers.map (remapHandler m.keep)).filter fun h => h.start < h.stop

/-! ## §5 Threading -/

/-- Follows unconditional jumps from `t`, at most `hops` of them and not past
`stop`. -/
def chase (instrs : List Instr) (stop : Option Nat) : Nat → Nat → Nat
  | 0, t => t
  | hops + 1, t =>
    if stop = some t then t
    else
      match instrs[t]? with
      | some word =>
        if word.op = some .jump then chase instrs stop hops word.imm24.toNat else t
      | none => t

/-- At least one hop is made from `t`. -/
def hopsFrom (instrs : List Instr) (stop : Option Nat) (t : Nat) : Bool :=
  stop ≠ some t && (instrs[t]?.bind Instr.op == some .jump)

/-- The word at `i` with its target threaded, when it reads as a branch whose
target is a jump. -/
def threadedWord (instrs : List Instr) (i : Nat) : Option Instr :=
  match instrs[i]? with
  | none => none
  | some word =>
    match word.op with
    | some .jump =>
      if hopsFrom instrs (some i) word.imm24.toNat then
        some (word.setImm24 (BitVec.ofNat 32 (chase instrs (some i) 16 word.imm24.toNat)))
      else none
    | some .jumpIfFalse | some .jumpIfTrue | some .jumpIfNullish =>
      if hopsFrom instrs none word.imm16.toNat then
        some (word.setImm16 (BitVec.ofNat 16 (chase instrs none 16 word.imm16.toNat)))
      else none
    | _ => none

def threadAt (instrs : List Instr) (i : Nat) : List Instr :=
  match threadedWord instrs i with
  | some word => instrs.set i word
  | none => instrs

def thread (instrs : List Instr) : List Instr := (List.range instrs.length).foldl threadAt instrs

/-- Some turn of the threading loop rewires a word. -/
def threads (instrs : List Instr) : Bool :=
  (List.range instrs.length).any fun i =>
    (threadedWord ((List.range i).foldl threadAt instrs) i).isSome

/-! ## §6 The pass -/

def compacted {σ : Type} (c : Code σ) : Code σ :=
  let m := markRound c.instrs
  if false ∈ m.keep then compactCode m c.spans c.handlers else c

/-- `round`, with whether anything changed. -/
def round {σ : Type} (c : Code σ) : Code σ × Bool :=
  let c' := compacted c
  ({ c' with instrs := thread c'.instrs },
    decide (false ∈ (markRound c.instrs).keep) || threads c'.instrs)

def roundsFrom {σ : Type} : Nat → Code σ → Code σ
  | 0, c => c
  | rounds + 1, c => if (round c).2 then roundsFrom rounds (round c).1 else (round c).1

/-- `optimize`. -/
def optimize {σ : Type} (c : Code σ) : Code σ := roundsFrom maxRounds c

end V12.Bccompiler
