/-
V12.Heap.WordTheorems — the words partition into the values.

`Boxes` is a word as its numbers: the box prefix, a tag and a payload below the
tag's room. The canonical words are the raw doubles and these, each constructor
builds one of them, and predicates and extractors read the tag and the payload
back.
-/
import V12.Heap.Word
import V12.Lib.BitPack
import Mathlib.Tactic.IntervalCases

namespace V12.Heap

open Lib

def Tag.room : Tag → Nat
  | .smi => 2147483648
  | .object | .string | .symbol | .bigint => 4294967296
  | .undefined | .null | .false_ | .true_ | .hole | .empty => 1

theorem Tag.room_le (tag : Tag) : tag.room ≤ 4294967296 := by cases tag <;> decide

theorem Tag.toNat_le (tag : Tag) : tag.toNat ≤ 10 := by cases tag <;> decide

theorem Tag.toNat_injective : Function.Injective Tag.toNat := by
  intro a b hab
  cases a <;> cases b <;> first | rfl | cases hab

namespace JsWord

variable {w : JsWord}

/-! ## §1 Words as numbers -/

/-- The word is `tag` over `payload`. -/
structure Boxes (w : JsWord) (tag : Tag) (payload : Nat) : Prop where
  fits : payload < tag.room
  number : w.bits.toNat = 8191 * 2251799813685248 + tag.toNat * 17592186044416 + payload

theorem toNat_and_mask (bits mask : BitVec 64) (k n : Nat) (hfits : k + n ≤ 64)
    (hmask : mask = place k 64 (BitVec.allOnes n)) :
    (bits &&& mask).toNat = bits.toNat / 2 ^ k % 2 ^ n * 2 ^ k := by
  rw [hmask]
  exact toNat_and_ones bits hfits

theorem isBoxed_iff : w.isBoxed = true ↔ w.bits.toNat / 2251799813685248 = 8191 := by
  have hand := toNat_and_mask w.bits BOX_MASK 51 13 (by decide) (by decide)
  have hmask : BOX_MASK.toNat = 8191 * 2 ^ 51 := by decide
  have hlt := w.bits.isLt
  unfold isBoxed
  rw [beq_iff_eq, ← BitVec.toNat_inj, hand, hmask]
  omega

theorem tag_toNat : w.tag.toNat = w.bits.toNat / 17592186044416 % 16 := by
  have hand := toNat_and_mask w.bits TAG_MASK 44 4 (by decide) (by decide)
  rw [tag, BitVec.toNat_ushiftRight, hand, Nat.shiftRight_eq_div_pow]
  omega

theorem spare_iff : w.bits &&& SPARE_MASK = 0 ↔ w.bits.toNat / 281474976710656 % 8 = 0 := by
  have hand := toNat_and_mask w.bits SPARE_MASK 48 3 (by decide) (by decide)
  have hzero : (0 : BitVec 64).toNat = 0 := rfl
  rw [← BitVec.toNat_inj, hand, hzero]
  omega

theorem unused_iff {mask : BitVec 64} {k n : Nat} (hfits : k + n ≤ 64)
    (hmask : LOWER_BITS_MASK &&& ~~~mask = place k 64 (BitVec.allOnes n)) :
    w.bits &&& LOWER_BITS_MASK &&& ~~~mask = 0 ↔ w.bits.toNat / 2 ^ k % 2 ^ n = 0 := by
  have hpos := Nat.two_pow_pos k
  have hzero : (0 : BitVec 64).toNat = 0 := rfl
  rw [BitVec.and_assoc, ← BitVec.toNat_inj, toNat_and_mask w.bits _ k n hfits hmask, hzero,
    Nat.mul_eq_zero]
  omega

/-! ## §2 Boxed words -/

namespace Boxes

variable {tag : Tag} {payload : Nat}

theorem isBoxed (h : Boxes w tag payload) : w.isBoxed = true := by
  have hfits := Nat.lt_of_lt_of_le h.fits tag.room_le
  have htag := tag.toNat_le
  rw [isBoxed_iff, h.number]
  omega

theorem tag_toNat (h : Boxes w tag payload) : w.tag.toNat = tag.toNat := by
  have hfits := Nat.lt_of_lt_of_le h.fits tag.room_le
  have htag := tag.toNat_le
  rw [JsWord.tag_toNat, h.number]
  omega

theorem eq {w' : JsWord} (h : Boxes w tag payload) (h' : Boxes w' tag payload) : w = w' := by
  obtain ⟨bits⟩ := w
  obtain ⟨bits'⟩ := w'
  have hbits : bits = bits' := BitVec.eq_of_toNat_eq (h.number.trans h'.number.symm)
  rw [hbits]

end Boxes

theorem boxes_boxed (tag : Tag) {payload : BitVec 64} (hfits : payload.toNat < tag.room) :
    Boxes ⟨boxed tag payload⟩ tag payload.toNat := by
  refine ⟨hfits, ?_⟩
  have htag := tag.toNat_le
  have hroom := tag.room_le
  have hshift : (BitVec.ofNat 64 tag.toNat <<< 44).toNat = 2 ^ 44 * tag.toNat := by
    rw [BitVec.toNat_shiftLeft, BitVec.toNat_ofNat, Nat.shiftLeft_eq]
    omega
  have hmask : BOX_MASK.toNat = 2 ^ 51 * 8191 := by decide
  have htagged : 2 ^ 51 * 8191 ||| 2 ^ 44 * tag.toNat = 2 ^ 44 * (128 * 8191 + tag.toNat) := by
    rw [← Nat.two_pow_add_eq_or_of_lt (by omega)]
    omega
  show (BOX_MASK ||| (BitVec.ofNat 64 tag.toNat <<< 44) ||| payload).toNat = _
  rw [BitVec.toNat_or, BitVec.toNat_or, hshift, hmask, htagged,
    ← Nat.two_pow_add_eq_or_of_lt (by omega)]
  omega

theorem boxes_boxedWith (tag : Tag) (hroom : tag.room = 1) : Boxes (boxedWith tag) tag 0 :=
  @boxes_boxed tag 0 (by rw [hroom]; decide)

/-! ## §3 Canonical words -/

theorem exists_tag {t : Nat} (ht : t ≤ 10) : ∃ tag : Tag, tag.toNat = t := by
  interval_cases t
  exacts [⟨.smi, rfl⟩, ⟨.object, rfl⟩, ⟨.string, rfl⟩, ⟨.symbol, rfl⟩, ⟨.bigint, rfl⟩,
    ⟨.undefined, rfl⟩, ⟨.null, rfl⟩, ⟨.false_, rfl⟩, ⟨.true_, rfl⟩, ⟨.hole, rfl⟩, ⟨.empty, rfl⟩]

/-- The payload check of `is_canonical`. -/
def payloadClear (w : JsWord) : Bool :=
  match payloadMask w.tag with
  | some mask => w.bits &&& LOWER_BITS_MASK &&& ~~~mask == 0
  | none => false

theorem payloadClear_iff {tag : Tag} (htag : w.tag.toNat = tag.toNat) :
    w.payloadClear = true ↔ w.bits.toNat % 17592186044416 < tag.room := by
  have hsmi (hmask : payloadMask w.tag = some SMI_PAYLOAD_MASK) :
      w.payloadClear = true ↔ w.bits.toNat % 17592186044416 < 2147483648 := by
    rw [payloadClear, hmask]
    show (_ == _) = true ↔ _
    rw [beq_iff_eq, @unused_iff w SMI_PAYLOAD_MASK 31 13 (by decide) (by decide)]
    omega
  have href (hmask : payloadMask w.tag = some REF_PAYLOAD_MASK) :
      w.payloadClear = true ↔ w.bits.toNat % 17592186044416 < 4294967296 := by
    rw [payloadClear, hmask]
    show (_ == _) = true ↔ _
    rw [beq_iff_eq, @unused_iff w REF_PAYLOAD_MASK 32 12 (by decide) (by decide)]
    omega
  have hnone (hmask : payloadMask w.tag = some 0) :
      w.payloadClear = true ↔ w.bits.toNat % 17592186044416 < 1 := by
    rw [payloadClear, hmask]
    show (_ == _) = true ↔ _
    rw [beq_iff_eq, @unused_iff w 0 0 44 (by decide) (by decide)]
    omega
  cases tag with
  | smi => exact hsmi (by rw [payloadMask, htag]; rfl)
  | object | string | symbol | bigint => exact href (by rw [payloadMask, htag]; rfl)
  | undefined | null | false_ | true_ | hole | empty =>
    exact hnone (by rw [payloadMask, htag]; rfl)

/-- **Canonical words are the raw doubles and the boxed values.** -/
theorem isCanonical_iff :
    w.isCanonical = true ↔ w.isBoxed = false ∨ ∃ tag payload, Boxes w tag payload := by
  cases hboxed : w.isBoxed with
  | false =>
    refine iff_of_true ?_ (Or.inl rfl)
    rw [isCanonical, hboxed]
    rfl
  | true =>
    have htop := isBoxed_iff.mp hboxed
    have hcanonical : w.isCanonical = true ↔
        w.bits &&& SPARE_MASK = 0 ∧ w.payloadClear = true := by
      rw [isCanonical, hboxed]
      show (if w.bits &&& SPARE_MASK ≠ 0 then false else w.payloadClear) = true ↔ _
      by_cases hspare : w.bits &&& SPARE_MASK = 0
      · rw [if_neg (not_not_intro hspare)]
        exact (and_iff_right hspare).symm
      · rw [if_pos hspare]
        exact iff_of_false (by decide) fun h => hspare h.1
    rw [hcanonical, spare_iff]
    constructor
    · rintro ⟨hspare, hclear⟩
      have htag : w.tag.toNat ≤ 10 := by
        by_contra hgt
        have hmask : payloadMask w.tag = none := by
          unfold payloadMask
          split <;> first | omega | rfl
        rw [payloadClear, hmask] at hclear
        cases hclear
      obtain ⟨tag, heq⟩ := exists_tag htag
      have hlt := (payloadClear_iff heq.symm).mp hclear
      rw [tag_toNat] at heq
      exact Or.inr ⟨tag, _, hlt, by omega⟩
    · rintro (hfalse | ⟨tag, payload, hboxes⟩)
      · cases hfalse
      · have hfits := Nat.lt_of_lt_of_le hboxes.fits tag.room_le
        have hle := tag.toNat_le
        refine ⟨by rw [hboxes.number]; omega, ?_⟩
        rw [payloadClear_iff hboxes.tag_toNat, hboxes.number]
        have hmod : (8191 * 2251799813685248 + tag.toNat * 17592186044416 + payload) %
            17592186044416 = payload := by omega
        rw [hmod]
        exact hboxes.fits

/-! ## §4 Kinds -/

/-- The kinds the type predicates tell apart. -/
inductive Kind where
  | f64 | smi | object | string | symbol | bigint | undefined | null | boolean | hole | empty
  deriving DecidableEq, Repr

namespace Kind

def test (debug : Bool) (w : JsWord) : Kind → Bool
  | .f64 => w.isF64
  | .smi => w.isSmi debug
  | .object => w.isObject debug
  | .string => w.isString debug
  | .symbol => w.isSymbol debug
  | .bigint => w.isBigint debug
  | .undefined => w.isUndefined debug
  | .null => w.isNull debug
  | .boolean => w.isBoolean debug
  | .hole => w.isHole debug
  | .empty => w.isEmpty debug

def tags : Kind → List Tag
  | .f64 => []
  | .smi => [.smi]
  | .object => [.object]
  | .string => [.string]
  | .symbol => [.symbol]
  | .bigint => [.bigint]
  | .undefined => [.undefined]
  | .null => [.null]
  | .boolean => [.true_, .false_]
  | .hole => [.hole]
  | .empty => [.empty]

end Kind

def Tag.kind : Tag → Kind
  | .smi => .smi
  | .object => .object
  | .string => .string
  | .symbol => .symbol
  | .bigint => .bigint
  | .undefined => .undefined
  | .null => .null
  | .false_ | .true_ => .boolean
  | .hole => .hole
  | .empty => .empty

/-- What the constructors of a kind build. -/
inductive Made : Kind → JsWord → Prop where
  | f64 (f : BitVec 64) : Made .f64 (fromF64 f)
  | smi {v : BitVec 32} {w : JsWord} (h : fromI32Smi v = some w) : Made .smi w
  | object (h : BitVec 32) : Made .object (JsWord.object h)
  | string (h : BitVec 32) : Made .string (JsWord.string h)
  | symbol (h : BitVec 32) : Made .symbol (JsWord.symbol h)
  | bigint (h : BitVec 32) : Made .bigint (JsWord.bigint h)
  | undefined : Made .undefined JsWord.undefined
  | null : Made .null JsWord.null
  | boolean (b : Bool) : Made .boolean (fromBool b)
  | hole : Made .hole JsWord.hole
  | empty : Made .empty JsWord.empty

variable {tag : Tag} {payload : Nat} {k : Kind}

theorem Boxes.tagged (h : Boxes w tag payload) (debug : Bool) (tags : List Tag) :
    JsWord.tagged debug w tags = true ↔ tag ∈ tags := by
  have hcanonical : w.isCanonical = true := isCanonical_iff.mpr (Or.inr ⟨tag, payload, h⟩)
  have hmatch (other : Tag) : (w.tag == BitVec.ofNat 64 other.toNat) = true ↔ tag = other := by
    have hle := other.toNat_le
    rw [beq_iff_eq, ← BitVec.toNat_inj, h.tag_toNat, BitVec.toNat_ofNat,
      Nat.mod_eq_of_lt (by omega)]
    exact Tag.toNat_injective.eq_iff
  have hany : (tags.any fun other => w.tag == BitVec.ofNat 64 other.toNat) = true ↔
      tag ∈ tags := by
    rw [List.any_eq_true]
    constructor
    · rintro ⟨other, hmem, heq⟩
      rw [(hmatch other).mp heq]
      exact hmem
    · exact fun hmem => ⟨tag, hmem, (hmatch tag).mpr rfl⟩
  unfold JsWord.tagged
  rw [h.isBoxed, hcanonical]
  cases debug <;> exact hany

theorem not_tagged (hraw : w.isBoxed = false) (debug : Bool) (tags : List Tag) :
    JsWord.tagged debug w tags = false := by
  unfold JsWord.tagged
  rw [hraw]
  cases debug <;> rfl

theorem Boxes.test_iff (h : Boxes w tag payload) (debug : Bool) (k : Kind) :
    k.test debug w = true ↔ tag ∈ k.tags := by
  cases k with
  | f64 =>
    show (!w.isBoxed) = true ↔ _
    rw [h.isBoxed]
    exact iff_of_false (by decide) (fun hmem => by cases hmem)
  | _ => exact h.tagged debug _

theorem test_raw (hraw : w.isBoxed = false) (debug : Bool) (k : Kind) :
    k.test debug w = true ↔ k = .f64 := by
  cases k with
  | f64 =>
    show (!w.isBoxed) = true ↔ _
    rw [hraw]
    exact iff_of_true rfl rfl
  | _ => exact iff_of_false (fun h => by cases h.symm.trans (not_tagged hraw debug _)) (by decide)

/-! ## §5 What constructors build -/

theorem toNat_smiPayload (v : BitVec 32) :
    (v.zeroExtend 64 &&& SMI_PAYLOAD_MASK).toNat = v.toNat % 2147483648 := by
  have hlt := v.isLt
  have hand := toNat_and_mask (v.zeroExtend 64) SMI_PAYLOAD_MASK 0 31 (by decide) (by decide)
  rw [hand, BitVec.toNat_setWidth]
  omega

theorem boxes_smi (v : BitVec 32) :
    Boxes ⟨boxed .smi (v.zeroExtend 64 &&& SMI_PAYLOAD_MASK)⟩ .smi (v.toNat % 2147483648) := by
  rw [← toNat_smiPayload]
  refine boxes_boxed .smi ?_
  rw [toNat_smiPayload]
  exact Nat.mod_lt _ (by decide)

theorem toNat_handle (h : BitVec 32) : (h.zeroExtend 64).toNat = h.toNat := by
  have hlt := h.isLt
  rw [BitVec.toNat_setWidth]
  omega

theorem boxes_handle (tag : Tag) (hroom : tag.room = 4294967296) (h : BitVec 32) :
    Boxes ⟨boxed tag (h.zeroExtend 64)⟩ tag h.toNat := by
  have hlt := h.isLt
  rw [← toNat_handle h]
  exact boxes_boxed tag (by rw [toNat_handle, hroom]; exact hlt)

theorem isBoxed_fromF64 (f : BitVec 64) : (fromF64 f).isBoxed = false := by
  unfold fromF64
  split
  case isTrue => decide
  case isFalse h => exact beq_false_of_ne h

theorem Made.shape (h : Made k w) :
    (k = .f64 ∧ w.isBoxed = false) ∨ ∃ tag payload, Boxes w tag payload ∧ tag ∈ k.tags := by
  cases h with
  | f64 f => exact Or.inl ⟨rfl, isBoxed_fromF64 f⟩
  | smi hv =>
    unfold fromI32Smi at hv
    split at hv
    case isTrue =>
      obtain rfl := Option.some.inj hv
      exact Or.inr ⟨_, _, boxes_smi _, List.mem_singleton.mpr rfl⟩
    case isFalse => cases hv
  | object h => exact Or.inr ⟨_, _, boxes_handle .object rfl h, List.mem_singleton.mpr rfl⟩
  | string h => exact Or.inr ⟨_, _, boxes_handle .string rfl h, List.mem_singleton.mpr rfl⟩
  | symbol h => exact Or.inr ⟨_, _, boxes_handle .symbol rfl h, List.mem_singleton.mpr rfl⟩
  | bigint h => exact Or.inr ⟨_, _, boxes_handle .bigint rfl h, List.mem_singleton.mpr rfl⟩
  | undefined => exact Or.inr ⟨_, _, boxes_boxedWith .undefined rfl, List.mem_singleton.mpr rfl⟩
  | null => exact Or.inr ⟨_, _, boxes_boxedWith .null rfl, List.mem_singleton.mpr rfl⟩
  | boolean b =>
    cases b with
    | true => exact Or.inr ⟨_, _, boxes_boxedWith .true_ rfl, List.mem_cons_self⟩
    | false =>
      exact Or.inr ⟨_, _, boxes_boxedWith .false_ rfl,
        List.mem_cons_of_mem _ (List.mem_singleton.mpr rfl)⟩
  | hole => exact Or.inr ⟨_, _, boxes_boxedWith .hole rfl, List.mem_singleton.mpr rfl⟩
  | empty => exact Or.inr ⟨_, _, boxes_boxedWith .empty rfl, List.mem_singleton.mpr rfl⟩

theorem Kind.eq_of_mem_tags {k' : Kind} (h : tag ∈ k.tags) (h' : tag ∈ k'.tags) :
    k = k' := by
  have hkind (k : Kind) (hmem : tag ∈ k.tags) : k = Tag.kind tag := by
    revert hmem
    cases tag <;> cases k <;> decide
  exact (hkind k h).trans (hkind k' h').symm

/-- **Exactly the predicate of its kind holds of a value.** -/
theorem Made.test_iff (h : Made k w) (debug : Bool) (k' : Kind) :
    k'.test debug w = true ↔ k' = k := by
  rcases h.shape with ⟨rfl, hraw⟩ | ⟨tag, payload, hboxes, hmem⟩
  · exact test_raw hraw debug k'
  · rw [hboxes.test_iff]
    constructor
    · exact fun hmem' => Kind.eq_of_mem_tags hmem' hmem
    · rintro rfl
      exact hmem

/-! ## §6 Every canonical word is built -/

theorem exists_smi (hp : payload < 2147483648) :
    ∃ v : BitVec 32, v.toNat % 2147483648 = payload ∧
      JsValue.SMI_MIN ≤ v.toInt ∧ v.toInt ≤ JsValue.SMI_MAX := by
  have hmin : JsValue.SMI_MIN = -1073741824 := by decide
  have hmax : JsValue.SMI_MAX = 1073741823 := by decide
  by_cases hneg : payload < 1073741824
  · refine ⟨BitVec.ofNat 32 payload, ?_, ?_⟩
    · rw [BitVec.toNat_ofNat]
      omega
    · rw [hmin, hmax, BitVec.toInt_eq_toNat_cond, BitVec.toNat_ofNat]
      split <;> omega
  · -- bit 30 is the sign
    refine ⟨BitVec.ofNat 32 (payload + 2147483648), ?_, ?_⟩
    · rw [BitVec.toNat_ofNat]
      omega
    · rw [hmin, hmax, BitVec.toInt_eq_toNat_cond, BitVec.toNat_ofNat]
      split <;> omega

theorem Boxes.made (h : Boxes w tag payload) :
    Made (Tag.kind tag) w := by
  have hhandle (hroom : tag.room = 4294967296) :
      w = ⟨boxed tag ((BitVec.ofNat 32 payload).zeroExtend 64)⟩ := by
    have hfits := h.fits
    have hnat : (BitVec.ofNat 32 payload).toNat = payload := by
      rw [BitVec.toNat_ofNat]
      omega
    have hboxes := boxes_handle tag hroom (BitVec.ofNat 32 payload)
    rw [hnat] at hboxes
    exact h.eq hboxes
  have hplain (hroom : tag.room = 1) : w = boxedWith tag := by
    have hfits := h.fits
    obtain rfl : payload = 0 := by omega
    exact h.eq (boxes_boxedWith tag hroom)
  cases tag with
  | smi =>
    obtain ⟨v, hv, hrange⟩ := exists_smi h.fits
    refine .smi (v := v) ?_
    rw [fromI32Smi, if_pos hrange]
    have hboxes := boxes_smi v
    rw [hv] at hboxes
    exact congrArg some (hboxes.eq h)
  | object => rw [hhandle rfl]; exact .object _
  | string => rw [hhandle rfl]; exact .string _
  | symbol => rw [hhandle rfl]; exact .symbol _
  | bigint => rw [hhandle rfl]; exact .bigint _
  | undefined => rw [hplain rfl]; exact .undefined
  | null => rw [hplain rfl]; exact .null
  | false_ => rw [hplain rfl]; exact .boolean false
  | true_ => rw [hplain rfl]; exact .boolean true
  | hole => rw [hplain rfl]; exact .hole
  | empty => rw [hplain rfl]; exact .empty

/-- **`from_bits` accepts exactly what the constructors build.** -/
theorem fromBits_isSome_iff (bits : BitVec 64) :
    (fromBits bits).isSome = true ↔ ∃ k, Made k ⟨bits⟩ := by
  have haccepts : (fromBits bits).isSome = true ↔ (JsWord.mk bits).isCanonical = true := by
    unfold fromBits
    split
    case isTrue h => exact iff_of_true rfl h
    case isFalse h => exact iff_of_false (by decide) h
  rw [haccepts, isCanonical_iff]
  constructor
  · rintro (hraw | ⟨tag, payload, hboxes⟩)
    · refine ⟨.f64, ?_⟩
      have hself : fromF64 bits = ⟨bits⟩ := if_neg (ne_of_beq_false hraw)
      rw [← hself]
      exact .f64 bits
    · exact ⟨_, hboxes.made⟩
  · rintro ⟨k, hmade⟩
    rcases hmade.shape with ⟨-, hraw⟩ | ⟨tag, payload, hboxes, -⟩
    · exact Or.inl hraw
    · exact Or.inr ⟨tag, payload, hboxes⟩

theorem fromBits_eq_some_iff (bits : BitVec 64) :
    fromBits bits = some w ↔ w = ⟨bits⟩ ∧ ∃ k, Made k w := by
  have hself : ∀ {w}, fromBits bits = some w → w = ⟨bits⟩ := by
    intro w h
    unfold fromBits at h
    split at h
    · exact (Option.some.inj h).symm
    · cases h
  constructor
  · intro h
    obtain rfl := hself h
    exact ⟨rfl, (fromBits_isSome_iff bits).mp (by rw [h]; rfl)⟩
  · rintro ⟨rfl, hmade⟩
    obtain ⟨w, hw⟩ := Option.isSome_iff_exists.mp ((fromBits_isSome_iff bits).mpr hmade)
    rw [hw, hself hw]

/-! ## §7 Extractors -/

def IsNaN (f : BitVec 64) : Prop :=
  f.toNat / 4503599627370496 % 2048 = 2047 ∧ f.toNat % 4503599627370496 ≠ 0

theorem asF64_fromF64 (f : BitVec 64) :
    ∃ f', (fromF64 f).asF64 = some f' ∧
      (f' = f ∨ (JsWord.mk f).isBoxed = true ∧ IsNaN f ∧ IsNaN f') := by
  have hextract : (fromF64 f).asF64 = some (fromF64 f).bits := by
    rw [asF64, isBoxed_fromF64]
    rfl
  refine ⟨_, hextract, ?_⟩
  unfold fromF64
  split
  case isTrue h =>
    have hboxed : (JsWord.mk f).isBoxed = true := beq_iff_eq.mpr h
    have htop : f.toNat / 2251799813685248 = 8191 := isBoxed_iff.mp hboxed
    exact Or.inr ⟨hboxed, ⟨by omega, by omega⟩, by decide, by decide⟩
  case isFalse => exact Or.inl rfl

theorem sign_extend {v q : BitVec 32} (hq : q.toNat = v.toNat % 2147483648)
    (hmin : -1073741824 ≤ v.toInt) (hmax : v.toInt ≤ 1073741823) :
    (q <<< 1).sshiftRight 1 = v := by
  have hlt := v.isLt
  have hup : (q <<< 1).toNat = 2 * q.toNat := by
    rw [BitVec.toNat_shiftLeft, Nat.shiftLeft_eq]
    omega
  apply BitVec.eq_of_toInt_eq
  rw [BitVec.toInt_sshiftRight, Int.shiftRight_eq_div_pow, BitVec.toInt_eq_toNat_cond, hup, hq]
  rw [BitVec.toInt_eq_toNat_cond] at hmin hmax ⊢
  split at hmin <;> split <;> omega

theorem asSmi_fromI32Smi (debug : Bool) {v : BitVec 32} (h : fromI32Smi v = some w) :
    w.asSmi debug = some v := by
  have hmin : JsValue.SMI_MIN = -1073741824 := by decide
  have hmax : JsValue.SMI_MAX = 1073741823 := by decide
  unfold fromI32Smi at h
  split at h
  case isTrue hrange =>
    obtain rfl := Option.some.inj h
    have hboxes := boxes_smi v
    have htest : isSmi debug ⟨boxed .smi (v.zeroExtend 64 &&& SMI_PAYLOAD_MASK)⟩ = true :=
      (hboxes.tagged debug [.smi]).mpr (List.mem_singleton.mpr rfl)
    rw [hmin, hmax] at hrange
    unfold asSmi
    rw [if_pos htest]
    refine congrArg some (sign_extend ?_ hrange.1 hrange.2)
    have hand := toNat_and_mask (boxed .smi (v.zeroExtend 64 &&& SMI_PAYLOAD_MASK))
      SMI_PAYLOAD_MASK 0 31 (by decide) (by decide)
    have hnumber := hboxes.number
    rw [BitVec.toNat_setWidth, hand]
    simp only at hnumber
    rw [hnumber]
    omega
  case isFalse => cases h

theorem refHandle_boxed (tag : Tag) (hroom : tag.room = 4294967296) (h : BitVec 32) :
    refHandle ⟨boxed tag (h.zeroExtend 64)⟩ tag = some h := by
  have hboxes := boxes_handle tag hroom h
  have hle := tag.toNat_le
  have hlt := h.isLt
  have htag : JsWord.tag ⟨boxed tag (h.zeroExtend 64)⟩ = BitVec.ofNat 64 tag.toNat := by
    rw [← hboxes.tag_toNat, BitVec.ofNat_toNat, BitVec.setWidth_eq]
  unfold refHandle
  rw [hboxes.isBoxed, Bool.true_and, if_pos (beq_iff_eq.mpr htag)]
  refine congrArg some (BitVec.eq_of_toNat_eq ?_)
  have hand := toNat_and_mask (boxed tag (h.zeroExtend 64)) REF_PAYLOAD_MASK 0 32 (by decide)
    (by decide)
  have hnumber := hboxes.number
  simp only at hnumber
  rw [BitVec.toNat_setWidth, hand, hnumber]
  omega

theorem asBool_fromBool (debug b : Bool) : (fromBool b).asBool debug = some b := by
  cases b <;> cases debug <;> decide

/-- Every extractor undoes its constructor. -/
structure ExtractorsInvert (debug : Bool) : Prop where
  /-- Bit by bit, unless the double has the prefix of the boxes, and so is a NaN. -/
  f64 : ∀ f, ∃ f', (fromF64 f).asF64 = some f' ∧
    (f' = f ∨ (JsWord.mk f).isBoxed = true ∧ IsNaN f ∧ IsNaN f')
  smi : ∀ v w, fromI32Smi v = some w → w.asSmi debug = some v
  object : ∀ h, (JsWord.object h).asObject = some h
  string : ∀ h, (JsWord.string h).asString = some h
  symbol : ∀ h, (JsWord.symbol h).asSymbol = some h
  bigint : ∀ h, (JsWord.bigint h).asBigint = some h
  bool : ∀ b, (fromBool b).asBool debug = some b

theorem extractorsInvert (debug : Bool) : ExtractorsInvert debug where
  f64 := asF64_fromF64
  smi _ _ h := asSmi_fromI32Smi debug h
  object := refHandle_boxed .object rfl
  string := refHandle_boxed .string rfl
  symbol := refHandle_boxed .symbol rfl
  bigint := refHandle_boxed .bigint rfl
  bool := asBool_fromBool debug

/-- **The words partition into the values**, in either build: kinds build disjoint words,
extractors undo constructors, of the predicates exactly the value's own holds, and `from_bits`
gives the word of these bits just when a constructor builds it. -/
theorem words_partition (debug : Bool) :
    (∀ k k' w, Made k w → Made k' w → k = k') ∧
    ExtractorsInvert debug ∧
    (∀ k w, Made k w → ∀ k', Kind.test debug w k' = true ↔ k' = k) ∧
    ∀ bits w, fromBits bits = some w ↔ w = ⟨bits⟩ ∧ ∃ k, Made k w := by
  refine ⟨fun k k' w h h' => ?_, extractorsInvert debug, fun k w h k' => h.test_iff debug k',
    fun bits _ => fromBits_eq_some_iff bits⟩
  exact (h'.test_iff debug k).mp ((h.test_iff debug k).mpr rfl)

end JsWord

end V12.Heap
