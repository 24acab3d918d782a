/-
V12.Bytecode.WideTheorems — wide operands decode to what was encoded.

Forward, `tryDecode` at the position of any embedded encoding gives the
operation back with the width `encode` produced. Backward, an accepted
position re-encodes to the words it was read from, on the bits the layout
gives to fields. `LoadConstW` takes its whole second payload word as the low
half of the constant id and breaks this: `spillsConstId`.
-/
import V12.Bytecode.Analysis

namespace V12.Bytecode

open Lib

namespace WideOp

variable {words rest : List Instr} {op : WideOp}

/-! ## §1 The documented layout -/

/-- The bits of a word at offset `k`, `n` wide. -/
def bitsAt (k n : Nat) : BitVec 32 := place k 32 (BitVec.allOnes n)

/-- Bits of the header that carry the opcode and the discriminant. -/
def headerBits : BitVec 32 := bitsAt 24 8 ||| bitsAt 0 8

/-- The bits of each encoded word that carry a field: the payload table in
the source's documentation, with unused header slots and halves left out. -/
def carriedBits : WideOp → List (BitVec 32)
  | .loadConstW .. => [headerBits, bitsAt 0 32, bitsAt 0 16]
  | .loadIntW .. => [headerBits, bitsAt 0 32, bitsAt 0 32, bitsAt 0 16]
  | .getEnvSlotW .. | .setEnvSlotW .. | .callW .. | .constructW .. | .copyArrayRestW .. =>
    [headerBits, bitsAt 0 32, bitsAt 0 16]
  | .copyObjectRestW .. | .setPropertyR .. | .getSuperW .. | .newPrivateNameW .. =>
    [headerBits, bitsAt 0 32, bitsAt 0 32]
  | .regExt .. => [headerBits ||| bitsAt 16 8, bitsAt 0 24]
  | .closureW .. | .newEnvironmentW .. => [headerBits, bitsAt 0 32]
  | .setPrivateMethodW .. | .definePrivateW .. | .hasPrivateW .. =>
    [headerBits, bitsAt 0 32, bitsAt 16 16]

def carried (masks : List (BitVec 32)) (words : List Instr) : List (BitVec 32) :=
  List.zipWith (fun mask instr => instr.word &&& mask) masks words

/-- Re-encoding `op` gives back the `width` words it was read from, on the
fields it carries. -/
def ReencodesTo (op : WideOp) (width : Nat) (words : List Instr) : Prop :=
  op.encode.length = width ∧
    carried op.carriedBits op.encode = carried op.carriedBits (words.take width)

instance (op : WideOp) (width : Nat) (words : List Instr) :
    Decidable (op.ReencodesTo width words) := inferInstanceAs (Decidable (_ ∧ _))

/-- A `LoadConstW` whose second payload word has a bit above the sixteenth
that the low half of the first payload word does not have. -/
def spillsConstId (words : List Instr) : Bool :=
  match words with
  | header :: w1 :: w2 :: _ =>
    header.c = 0 && field 0 16 w1.word ||| field 16 16 w2.word ≠ field 0 16 w1.word
  | _ => false

/-! ## §2 Decoding an encoding -/

theorem op_hdr (a : BitVec 8) (disc : BitVec 32) : (hdr a disc).op = some .wide :=
  Instr.op_new _ _ _ _

theorem a_hdr (a : BitVec 8) (disc : BitVec 32) : (hdr a disc).a = a := Instr.a_new _ _ _ _

theorem c_hdr_disc (a : BitVec 8) (op : WideOp) : (hdr a op.disc).c.toNat = op.disc.toNat := by
  have h : (hdr a op.disc).c = field 0 8 op.disc := Instr.c_new _ _ _ _
  rw [h]
  cases op <;> rfl

theorem tryDecode_hdr (a : BitVec 8) (disc : BitVec 32) (ws : List Instr) :
    tryDecode (hdr a disc :: ws) = decodeBody (hdr a disc :: ws) (hdr a disc) := by
  simp [tryDecode, op_hdr]

theorem unpackHiLo_packHiLo (hi lo : BitVec 16) : unpackHiLo (packHiLo hi lo) = (hi, lo) := by
  simp [unpackHiLo, packHiLo, field_or, field_place_self, field_place_disjoint]

theorem field_low_place (v : BitVec 16) : field 0 16 (place 0 32 v) = v :=
  field_place_self v (by omega)

theorem constId_halves (constId : BitVec 32) :
    place 16 32 (field 16 16 constId) ||| (constId &&& 0xFFFF) = constId := by
  rw [show (0xFFFF : BitVec 32) = place 0 32 (BitVec.allOnes 16) by decide,
    and_place_allOnes constId]
  exact place_field_pair (by rfl) constId

theorem field_ext_word (x y z : BitVec 8) :
    field 16 8 (place 16 32 x ||| place 8 32 y ||| place 0 32 z) = x ∧
    field 8 8 (place 16 32 x ||| place 8 32 y ||| place 0 32 z) = y ∧
    field 0 8 (place 16 32 x ||| place 8 32 y ||| place 0 32 z) = z := by
  simp [field_or, field_place_self, field_place_disjoint]

theorem tryDecode_encode_append (op : WideOp) (post : List Instr) :
    tryDecode (op.encode ++ post) = .ok (op, op.encode.length) := by
  have hc (a : BitVec 8) := c_hdr_disc a op
  cases op with
  | loadConstW dst constId =>
    simp only [encode, List.cons_append, tryDecode_hdr, decodeBody, hc]
    simp [disc, payload, unpackHiLo_packHiLo, bind, Except.bind, pure, Except.pure]
    exact constId_halves constId
  | loadIntW dst value =>
    simp only [encode, List.cons_append, tryDecode_hdr, decodeBody, hc]
    simp [disc, payload, field_low_place, bind, Except.bind, pure, Except.pure]
    exact place_field_pair (by rfl) value
  | regExt mask aHi bHi cHi =>
    simp only [encode, List.cons_append, tryDecode_hdr, decodeBody, hc]
    simp [disc, payload, a_hdr, field_ext_word, bind, Except.bind, pure, Except.pure]
  | _ =>
    -- two fields a word, or one field in the low half
    simp only [encode, List.cons_append, tryDecode_hdr, decodeBody, hc]
    simp [disc, payload, unpackHiLo_packHiLo, field_low_place, bind, Except.bind, pure,
      Except.pure]

theorem encode_ne_nil (op : WideOp) : ∃ header rest, op.encode = header :: rest ∧
    header.op = some .wide := by
  cases op <;> exact ⟨_, _, rfl, op_hdr _ _⟩

theorem tryDecode_embedded (op : WideOp) (pre post : List Instr) :
    tryDecode ((pre ++ op.encode ++ post).drop pre.length) = .ok (op, op.encode.length) := by
  rw [List.append_assoc, List.drop_left]
  exact tryDecode_encode_append op post

theorem instrWidth_embedded (op : WideOp) (pre post : List Instr) :
    instrWidth (pre ++ op.encode ++ post) pre.length = op.encode.length := by
  obtain ⟨header, rest, henc, hop⟩ := encode_ne_nil op
  have hget : (pre ++ op.encode ++ post)[pre.length]? = some header := by simp [henc]
  have hmin : min pre.length (pre ++ op.encode ++ post).length = pre.length := by simp
  unfold instrWidth
  rw [hget, hmin, tryDecode_embedded]
  simp [hop]

/-! ## §3 Re-encoding what was decoded -/

theorem bind_payload_ok {α : Type} {i : Nat} {f : BitVec 32 → Except BytecodeError α} {r : α}
    (h : (payload words i >>= f) = .ok r) : ∃ v, words[i]? = some ⟨v⟩ ∧ f v = .ok r := by
  unfold payload at h
  cases hw : words[i]? with
  | none => simp [hw, bind, Except.bind] at h
  | some w =>
    simp only [hw, bind, Except.bind] at h
    exact ⟨w.word, rfl, h⟩

theorem tryDecode_ok {r : WideOp × Nat} (h : tryDecode words = .ok r) :
    ∃ header rest, words = header :: rest ∧ header.op = some .wide ∧
      decodeBody (header :: rest) header = .ok r := by
  cases words with
  | nil => simp [tryDecode] at h
  | cons header rest =>
    by_cases hop : header.op = some .wide
    · exact ⟨header, rest, rfl, hop, by simpa [tryDecode, hop] using h⟩
    · simp [tryDecode, hop] at h

theorem tryDecode_layout {header : Instr} {width : Nat}
    (h : tryDecode (header :: rest) = .ok (op, width)) :
    header.c.toNat = op.disc.toNat ∧ op.encode.length = width ∧
      width ≤ (header :: rest).length := by
  obtain ⟨header, rest, hcons, hop, h⟩ := tryDecode_ok h
  obtain ⟨rfl, rfl⟩ := List.cons.inj hcons
  unfold decodeBody at h
  split at h
  case h_2 hc =>
    obtain ⟨lo, hw1, h⟩ := bind_payload_ok h
    obtain ⟨hi, hw2, h⟩ := bind_payload_ok h
    obtain ⟨dst, hw3, h⟩ := bind_payload_ok h
    obtain ⟨hlen, -⟩ := List.getElem?_eq_some_iff.mp hw3
    cases h
    exact ⟨hc, rfl, hlen⟩
  case h_9 hc | h_10 hc | h_11 hc =>
    obtain ⟨w1, hw1, h⟩ := bind_payload_ok h
    obtain ⟨hlen, -⟩ := List.getElem?_eq_some_iff.mp hw1
    cases h
    exact ⟨hc, rfl, hlen⟩
  case h_18 => cases h
  all_goals
    rename_i hc
    obtain ⟨w1, hw1, h⟩ := bind_payload_ok h
    obtain ⟨w2, hw2, h⟩ := bind_payload_ok h
    obtain ⟨hlen, -⟩ := List.getElem?_eq_some_iff.mp hw2
    cases h
    exact ⟨hc, rfl, hlen⟩

theorem encode_length_pos (op : WideOp) : 2 ≤ op.encode.length := by
  cases op <;> simp [encode]

theorem bitsAt_all : bitsAt 0 32 = BitVec.allOnes 32 := by decide

theorem bitsAt_congr {k n : Nat} {w w' : BitVec 32}
    (h : field k n w = field k n w') : w &&& bitsAt k n = w' &&& bitsAt k n := by
  rw [bitsAt, and_place_allOnes w, and_place_allOnes w', h]

theorem header_carried {a : BitVec 8} {header : Instr} (hop : header.op = some .wide)
    (hc : header.c.toNat = op.disc.toNat) :
    (hdr a op.disc).word &&& headerBits = header.word &&& headerBits := by
  have hbyte : field 24 8 (hdr a op.disc).word = field 24 8 header.word := by
    have h₁ := Opcode.byte_of_fromByte (op_hdr a op.disc)
    have h₂ := Opcode.byte_of_fromByte hop
    rw [← h₁, ← h₂]
  have hlow : field 0 8 (hdr a op.disc).word = field 0 8 header.word :=
    BitVec.eq_of_toNat_eq ((c_hdr_disc a op).trans hc.symm)
  rw [headerBits, BitVec.and_or_distrib_left, BitVec.and_or_distrib_left,
    bitsAt_congr hbyte, bitsAt_congr hlow]

theorem pair_carried (w : BitVec 32) : packHiLo (field 16 16 w) (field 0 16 w) = w :=
  place_field_pair (by rfl) w

theorem low_carried (w : BitVec 32) :
    place 0 32 (field 0 16 w) &&& bitsAt 0 16 = w &&& bitsAt 0 16 :=
  bitsAt_congr (field_low_place _)

theorem high_carried (w : BitVec 32) :
    packHiLo (field 16 16 w) 0#16 &&& bitsAt 16 16 = w &&& bitsAt 16 16 := by
  refine bitsAt_congr ?_
  simp [packHiLo, field_or, field_place_self, field_place_disjoint]

theorem ext_carried (w : BitVec 32) :
    (place 16 32 (field 16 8 w) ||| place 8 32 (field 8 8 w) ||| place 0 32 (field 0 8 w)) &&&
      bitsAt 0 24 = w &&& bitsAt 0 24 := by
  have hsplit : bitsAt 0 24 = bitsAt 16 8 ||| bitsAt 8 8 ||| bitsAt 0 8 := by decide
  obtain ⟨h₁, h₂, h₃⟩ := field_ext_word (field 16 8 w) (field 8 8 w) (field 0 8 w)
  rw [hsplit]
  simp only [BitVec.and_or_distrib_left]
  rw [bitsAt_congr h₁, bitsAt_congr h₂, bitsAt_congr h₃]

theorem value_carried (hi lo : BitVec 32) :
    field 0 32 (place 32 64 hi ||| place 0 64 lo) = lo ∧
    field 32 32 (place 32 64 hi ||| place 0 64 lo) = hi := by
  simp [field_or, field_place_self, field_place_disjoint]

theorem constId_carried (w1 w2 : BitVec 32) :
    packHiLo (field 16 16 w1) (field 16 16 (place 16 32 (field 0 16 w1) ||| w2)) = w1 ↔
      field 0 16 w1 ||| field 16 16 w2 = field 0 16 w1 := by
  rw [field_or, field_place_self _ (by omega)]
  constructor
  · intro h
    have := congrArg (field 0 16) h
    simpa [packHiLo, field_or, field_place_self, field_place_disjoint] using this
  · intro h
    rw [h]
    exact pair_carried w1

theorem constLow_carried (w1 w2 : BitVec 32) :
    ((place 16 32 (field 0 16 w1) ||| w2) &&& 0xFFFF) &&& bitsAt 0 16 = w2 &&& bitsAt 0 16 := by
  have hmask : (0xFFFF : BitVec 32) = bitsAt 0 16 := by decide
  rw [hmask, BitVec.and_assoc, BitVec.and_self]
  refine bitsAt_congr ?_
  rw [field_or, field_place_disjoint _ (by omega), BitVec.zero_or]

theorem eq_cons_of_getElem? (header : Instr) {w1 : Instr} (h₁ : (header :: rest)[1]? = some w1) :
    ∃ rest', rest = w1 :: rest' := by
  cases rest with
  | nil => simp at h₁
  | cons w rest' => exact ⟨rest', by simpa using h₁⟩

theorem eq_cons₂_of_getElem? {header w1 w2 : Instr} (h₁ : (header :: rest)[1]? = some w1)
    (h₂ : (header :: rest)[2]? = some w2) :
    ∃ rest', rest = w1 :: w2 :: rest' := by
  obtain ⟨rest₁, rfl⟩ := eq_cons_of_getElem? header h₁
  obtain ⟨rest₂, rfl⟩ := eq_cons_of_getElem? w1 (by simpa using h₂)
  exact ⟨rest₂, rfl⟩

theorem spillsConstId_of_disc {header : Instr} {d : Nat} (hc : header.c.toNat = d) (hd : d ≠ 0) :
    spillsConstId (header :: rest) = false := by
  have hne : header.c ≠ 0#8 := by
    intro h0
    exact hd (by rw [← hc, h0]; rfl)
  cases rest with
  | nil => rfl
  | cons w1 rest =>
    cases rest with
    | nil => rfl
    | cons w2 rest => simp [spillsConstId, hne]

theorem reencodesTo_one {header : Instr} {p1 w1 m1 : BitVec 32}
    (henc : op.encode = [hdr 0 op.disc, ⟨p1⟩]) (hmask : op.carriedBits = [headerBits, m1])
    (hop : header.op = some .wide) (hc : header.c.toNat = op.disc.toNat) :
    op.ReencodesTo 2 (header :: ⟨w1⟩ :: rest) ↔ p1 &&& m1 = w1 &&& m1 := by
  simp [ReencodesTo, henc, hmask, carried, header_carried hop hc]

theorem reencodesTo_two {header : Instr} {p1 p2 w1 w2 m1 m2 : BitVec 32}
    (henc : op.encode = [hdr 0 op.disc, ⟨p1⟩, ⟨p2⟩]) (hmask : op.carriedBits = [headerBits, m1, m2])
    (hop : header.op = some .wide) (hc : header.c.toNat = op.disc.toNat) :
    op.ReencodesTo 3 (header :: ⟨w1⟩ :: ⟨w2⟩ :: rest) ↔
      p1 &&& m1 = w1 &&& m1 ∧ p2 &&& m2 = w2 &&& m2 := by
  simp [ReencodesTo, henc, hmask, carried, header_carried hop hc]

theorem reencodesTo_iff {width : Nat} (h : tryDecode words = .ok (op, width)) :
    op.ReencodesTo width words ↔ spillsConstId words = false := by
  obtain ⟨header, rest, rfl, hop, h⟩ := tryDecode_ok h
  unfold decodeBody at h
  split at h
  case h_1 hc =>
    -- `LoadConstW`
    obtain ⟨w1, hw1, h⟩ := bind_payload_ok h
    obtain ⟨w2, hw2, h⟩ := bind_payload_ok h
    obtain ⟨rest, rfl⟩ := eq_cons₂_of_getElem? hw1 hw2
    have hc0 : header.c = 0 := BitVec.eq_of_toNat_eq hc
    cases h
    refine Iff.trans (reencodesTo_two rfl rfl hop hc) ?_
    simp only [bitsAt_all, BitVec.and_allOnes, constLow_carried, constId_carried, and_true]
    simp [spillsConstId, hc0]
  case h_2 hc =>
    -- `LoadIntW`, the one variant of three payload words
    obtain ⟨lo, hw1, h⟩ := bind_payload_ok h
    obtain ⟨hi, hw2, h⟩ := bind_payload_ok h
    obtain ⟨dst, hw3, h⟩ := bind_payload_ok h
    obtain ⟨rest, rfl⟩ := eq_cons₂_of_getElem? hw1 hw2
    obtain ⟨rest, rfl⟩ := eq_cons_of_getElem? ⟨hi⟩ (by simpa using hw3)
    cases h
    refine iff_of_true ⟨rfl, ?_⟩ (spillsConstId_of_disc hc (by decide))
    simp [encode, carried, carriedBits, value_carried, low_carried]
    exact header_carried hop hc
  case h_9 hc =>
    -- `RegExt`, whose mask rides in the header
    obtain ⟨ext, hw1, h⟩ := bind_payload_ok h
    obtain ⟨rest, rfl⟩ := eq_cons_of_getElem? header hw1
    cases h
    refine iff_of_true ⟨rfl, ?_⟩ (spillsConstId_of_disc hc (by decide))
    have hmask : field 16 8 (hdr header.a 7#32).word = field 16 8 header.word := a_hdr header.a 7
    have hheader : (hdr header.a (regExt 0 0 0 0).disc).word &&& headerBits =
        header.word &&& headerBits := header_carried hop hc
    change (hdr header.a 7#32).word &&& _ = _ at hheader
    simp [encode, disc, carried, carriedBits, ext_carried, BitVec.and_or_distrib_left, hheader,
      bitsAt_congr hmask]
  case h_10 hc | h_11 hc =>
    -- one payload word
    obtain ⟨w1, hw1, h⟩ := bind_payload_ok h
    obtain ⟨rest, rfl⟩ := eq_cons_of_getElem? header hw1
    cases h
    refine Iff.trans (reencodesTo_one rfl rfl hop hc) ?_
    simp [pair_carried, spillsConstId_of_disc hc]
  case h_18 => cases h
  all_goals
    -- two payload words
    rename_i hc
    obtain ⟨w1, hw1, h⟩ := bind_payload_ok h
    obtain ⟨w2, hw2, h⟩ := bind_payload_ok h
    obtain ⟨rest, rfl⟩ := eq_cons₂_of_getElem? hw1 hw2
    cases h
    refine Iff.trans (reencodesTo_two rfl rfl hop hc) ?_
    simp [pair_carried, low_carried, high_carried, spillsConstId_of_disc hc]

/-! ## §4 Encode and decode agree -/

/-- **Wide round trip.** Every encoding is read back, with its width, at any
position it is embedded at; every accepted position re-encodes to its own
words on the fields the operation carries, except where a `LoadConstW`
payload spills into the high half of its constant id. -/
theorem wide_round_trip (op : WideOp) (pre post words : List Instr) (pc width : Nat) :
    (tryDecode ((pre ++ op.encode ++ post).drop pre.length) = .ok (op, op.encode.length) ∧
      instrWidth (pre ++ op.encode ++ post) pre.length = op.encode.length) ∧
    (tryDecode (words.drop pc) = .ok (op, width) →
      (op.ReencodesTo width (words.drop pc) ↔ spillsConstId (words.drop pc) = false)) :=
  ⟨⟨tryDecode_embedded op pre post, instrWidth_embedded op pre post⟩, reencodesTo_iff⟩

/-- The round trip at a call embedded after one narrow instruction. -/
theorem wide_round_trip_callW :
    (callW 300 7 2).ReencodesTo 3
      ((Instr.new .loopHeader 0 0 0 :: (callW 300 7 2).encode).drop 1) :=
  ((wide_round_trip (.callW 300 7 2) [] []
    (Instr.new .loopHeader 0 0 0 :: (callW 300 7 2).encode) 1 3).2 (by decide)).2 (by decide)

/-- The spilled id `0x10000` re-encodes with the bit moved to the first
payload word. -/
theorem loadConstW_spill_reencodes_differently :
    tryDecode [hdr 0 0, ⟨0⟩, ⟨0x00010000⟩] = .ok (.loadConstW 0 0x00010000, 3) ∧
      ¬ (loadConstW 0 0x00010000).ReencodesTo 3 [hdr 0 0, ⟨0⟩, ⟨0x00010000⟩] := by
  decide

end WideOp

end V12.Bytecode
