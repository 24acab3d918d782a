/-
V12.Lib.StrSlice — texts as UTF-8 bytes that are sliced by byte offsets.

A slice has to begin and end at character boundaries; where it does not, there is
no slice. A byte below 128 is a character (`Reads.next`), so a text that is read
byte by byte as ASCII is always left at a boundary.
-/
import V12.Lib.Utf8

namespace Lib.Utf8

/-! ## §1 Bytes of characters -/

/-- `len_utf8`. -/
def size (c : Char) : Nat := (String.utf8EncodeChar c).length

theorem length_bytes_cons (c : Char) (t : List Char) :
    (bytes (c :: t)).length = size c + (bytes t).length := by
  rw [bytes_cons, List.length_append, List.length_map, size]

theorem bytes_append (s t : List Char) : bytes (s ++ t) = bytes s ++ bytes t := List.flatMap_append

theorem size_pos (c : Char) : 0 < size c := by
  rw [size, ← List.length_map (f := UInt8.toNat)]
  rcases encodeChar_cases c with ⟨-, h⟩ | ⟨-, b, bs, h, -⟩ <;> rw [h] <;> exact Nat.succ_pos _

theorem bytes_cons_ascii {c : Char} (h : c.toNat < 128) (t : List Char) :
    bytes (c :: t) = c.toNat :: bytes t := by
  rw [bytes_cons]
  rcases encodeChar_cases c with ⟨-, hbytes⟩ | ⟨hlarge, -⟩
  · rw [hbytes]
    rfl
  · omega

/-! ## §2 Slices -/

def splitAt? : List Char → Nat → Option (List Char × List Char)
  | s, 0 => some ([], s)
  | [], _ + 1 => none
  | c :: s, n + 1 =>
    if size c ≤ n + 1 then (splitAt? s (n + 1 - size c)).map fun p => (c :: p.1, p.2) else none

/-- `&s[a..b]`; `none` is a panic. -/
def slice (s : List Char) (a b : Nat) : Option (List Char) :=
  if a ≤ b then do
    let (_, rest) ← splitAt? s a
    let (m, _) ← splitAt? rest (b - a)
    return m
  else none

theorem splitAt?_append (p q : List Char) : splitAt? (p ++ q) (bytes p).length = some (p, q) := by
  induction p with
  | nil => cases q <;> rfl
  | cons c p ih =>
    have hpos := size_pos c
    obtain ⟨n, hn⟩ : ∃ n, (bytes (c :: p)).length = n + 1 := by
      rw [length_bytes_cons]
      exact ⟨size c + (bytes p).length - 1, by omega⟩
    rw [hn, List.cons_append, splitAt?]
    rw [length_bytes_cons] at hn
    rw [if_pos (by omega), show n + 1 - size c = (bytes p).length by omega, ih]
    rfl

theorem eq_append_of_splitAt? {s p q : List Char} {n : Nat} (h : splitAt? s n = some (p, q)) :
    s = p ++ q ∧ (bytes p).length = n := by
  induction s generalizing n p with
  | nil =>
    cases n with
    | zero =>
      cases h
      exact ⟨rfl, rfl⟩
    | succ n => cases h
  | cons c s ih =>
    cases n with
    | zero =>
      cases h
      exact ⟨rfl, rfl⟩
    | succ n =>
      rw [splitAt?] at h
      split at h
      · next hsize =>
        obtain ⟨⟨p', q'⟩, hsplit, heq⟩ := Option.map_eq_some_iff.mp h
        cases heq
        obtain ⟨rfl, hlength⟩ := ih hsplit
        exact ⟨rfl, (length_bytes_cons c p').trans (by omega)⟩
      · cases h

theorem slice_append (p m q : List Char) : slice (p ++ (m ++ q)) (bytes p).length
    ((bytes p).length + (bytes m).length) = some m := by
  unfold slice
  rw [if_pos (Nat.le_add_right _ _), splitAt?_append, Nat.add_sub_cancel_left]
  simp only [Option.bind_eq_bind, Option.bind_some, splitAt?_append]
  rfl

/-! ## §3 Reading ASCII -/

/-- After `i` bytes, all of them ASCII, `rest` is left of the text. -/
structure Reads (s : List Char) (i : Nat) (rest : List Char) : Prop where
  split : ∃ p, s = p ++ rest ∧ (bytes p).length = i ∧ ∀ c ∈ p, c.toNat < 128

theorem reads_start (s : List Char) : Reads s 0 s := ⟨[], rfl, rfl, by simp⟩

variable {s rest : List Char} {i : Nat}

theorem Reads.getElem? (h : Reads s i rest) (j : Nat) : (bytes s)[i + j]? = (bytes rest)[j]? := by
  obtain ⟨p, rfl, rfl, -⟩ := h.split
  rw [bytes_append, List.getElem?_append_right (Nat.le_add_right _ _), Nat.add_sub_cancel_left]

theorem Reads.length (h : Reads s i rest) : (bytes s).length = i + (bytes rest).length := by
  obtain ⟨p, rfl, rfl, -⟩ := h.split
  rw [bytes_append, List.length_append]

theorem Reads.cons {c : Char} (h : Reads s i (c :: rest)) (hc : c.toNat < 128) :
    Reads s (i + 1) rest := by
  obtain ⟨p, rfl, rfl, hp⟩ := h.split
  refine ⟨p ++ [c], by simp, ?_, fun a ha => ?_⟩
  · rw [bytes_append, bytes_cons_ascii hc, List.length_append]
    rfl
  · rcases List.mem_append.mp ha with ha | ha
    · exact hp a ha
    · rwa [List.mem_singleton.mp ha]

theorem Reads.append {ds : List Char} (h : Reads s i (ds ++ rest)) (hascii : ∀ c ∈ ds, c.toNat < 128) :
    Reads s (i + ds.length) rest := by
  induction ds generalizing i with
  | nil => exact h
  | cons c ds ih =>
    have hnext := h.cons (hascii c List.mem_cons_self)
    rw [List.length_cons, ← Nat.add_assoc, Nat.add_right_comm]
    exact ih hnext fun a ha => hascii a (List.mem_cons_of_mem c ha)

theorem Reads.next {b : Nat} (h : Reads s i rest) (hb : (bytes s)[i]? = some b) (hlt : b < 128) :
    ∃ c rest', rest = c :: rest' ∧ c.toNat = b ∧ Reads s (i + 1) rest' := by
  have hget := h.getElem? 0
  rw [Nat.add_zero, hb] at hget
  cases rest with
  | nil => cases hget
  | cons c rest' =>
    rcases encodeChar_cases c with ⟨hc, hbytes⟩ | ⟨-, b', bs, hbytes, hb'⟩
    · rw [bytes_cons, hbytes] at hget
      obtain rfl := Option.some.inj hget
      exact ⟨c, rest', rfl, rfl, h.cons hc⟩
    · rw [bytes_cons, hbytes] at hget
      obtain rfl := Option.some.inj hget
      omega

theorem Reads.slice (h : Reads s i rest) (k : Nat)
    (hk : ∀ j < k, ∃ b, (bytes s)[i + j]? = some b ∧ b < 128) :
    ∃ m rest', Utf8.slice s i (i + k) = some m ∧ m.length = k ∧ rest = m ++ rest' ∧
      bytes m = ((bytes s).drop i).take k ∧ (∀ c ∈ m, c.toNat < 128) ∧ Reads s (i + k) rest' := by
  have hrun : ∀ (k : Nat) {i : Nat} {rest : List Char}, Reads s i rest →
      (∀ j < k, ∃ b, (bytes s)[i + j]? = some b ∧ b < 128) →
      ∃ m rest', rest = m ++ rest' ∧ m.length = k ∧ (∀ c ∈ m, c.toNat < 128) ∧
        Reads s (i + k) rest' := by
    intro k
    induction k with
    | zero => exact fun h _ => ⟨[], _, rfl, rfl, by simp, h⟩
    | succ k ih =>
      intro i rest h hk
      obtain ⟨b, hb, hlt⟩ := hk 0 (Nat.succ_pos k)
      obtain ⟨c, rest', rfl, rfl, hnext⟩ := h.next hb hlt
      obtain ⟨m, rest'', rfl, hm, hascii, hreads⟩ := ih hnext fun j hj => by
        rw [Nat.add_assoc, Nat.add_comm 1 j]
        exact hk (j + 1) (Nat.succ_lt_succ hj)
      refine ⟨c :: m, rest'', rfl, by rw [List.length_cons, hm], fun a ha => ?_, ?_⟩
      · rcases List.mem_cons.mp ha with rfl | ha
        · exact hlt
        · exact hascii a ha
      · rwa [show i + (k + 1) = i + 1 + k by omega]
  obtain ⟨m, rest', rfl, hm, hascii, hreads⟩ := hrun k h hk
  have hlength : (bytes m).length = k := by rw [bytes_ascii hascii, List.length_map, hm]
  obtain ⟨p, rfl, rfl, -⟩ := h.split
  refine ⟨m, rest', ?_, hm, rfl, ?_, hascii, hreads⟩
  · have hslice := slice_append p m rest'
    rwa [hlength] at hslice
  · rw [bytes_append, List.drop_left, bytes_append, ← hlength, List.take_left]

theorem Reads.ascii (h : Reads s i rest) (hend : i = (bytes s).length) : ∀ c ∈ s, c.toNat < 128 := by
  have hlength := h.length
  have hrest : rest = [] := by
    cases rest with
    | nil => rfl
    | cons c rest =>
      have := size_pos c
      rw [length_bytes_cons] at hlength
      omega
  obtain ⟨p, rfl, -, hp⟩ := h.split
  rwa [hrest, List.append_nil]

/-! ## §4 Checked decoding -/

/-- `std::str::from_utf8`. -/
def fromUtf8 (bs : List Nat) : Option (List Char) :=
  (bs.map UInt8.ofNat).toByteArray.utf8Decode?.map Array.toList

theorem map_ofNat_bytes (t : List Char) :
    (bytes t).map UInt8.ofNat = t.flatMap String.utf8EncodeChar := by
  simp [bytes, List.map_flatMap, Function.comp_def]

/-- **The bytes of a text are read as the text.** -/
theorem fromUtf8_bytes (t : List Char) : fromUtf8 (bytes t) = some t := by
  have hencode : (t.flatMap String.utf8EncodeChar).toByteArray = t.utf8Encode := rfl
  rw [fromUtf8, map_ofNat_bytes, hencode, List.utf8Decode?_utf8Encode]
  rfl

theorem lt_of_mem_bytes {t : List Char} {b : Nat} (h : b ∈ bytes t) : b < 256 := by
  obtain ⟨c, -, hb⟩ := List.mem_flatMap.mp h
  obtain ⟨u, -, rfl⟩ := List.mem_map.mp hb
  exact u.toNat_lt

theorem map_ofNat_injective {as bs : List Nat} (has : ∀ a ∈ as, a < 256) (hbs : ∀ b ∈ bs, b < 256)
    (h : as.map UInt8.ofNat = bs.map UInt8.ofNat) : as = bs := by
  have hback : ∀ {cs : List Nat}, (∀ c ∈ cs, c < 256) →
      (cs.map UInt8.ofNat).map UInt8.toNat = cs := by
    intro cs hcs
    rw [List.map_map]
    conv_rhs => rw [← List.map_id cs]
    refine List.map_congr_left fun c hc => ?_
    rw [Function.comp_apply, UInt8.toNat_ofNat']
    exact Nat.mod_eq_of_lt (hcs c hc)
  rw [← hback has, h, hback hbs]

theorem eq_bytes_of_fromUtf8 {bs : List Nat} {t : List Char} (hbs : ∀ b ∈ bs, b < 256)
    (h : fromUtf8 bs = some t) : bs = bytes t := by
  refine map_ofNat_injective hbs (fun b hb => lt_of_mem_bytes hb) ?_
  obtain ⟨a, ha, rfl⟩ := Option.map_eq_some_iff.mp h
  have hsome : (bs.map UInt8.ofNat).toByteArray.utf8Decode?.isSome := by rw [ha]; rfl
  have hget := ByteArray.utf8Encode_get_utf8Decode? (h := hsome)
  have ha' : (bs.map UInt8.ofNat).toByteArray.utf8Decode?.get hsome = a := by
    rw [Option.get_of_eq_some hsome ha]
  rw [ha'] at hget
  have hencode : (a.toList.flatMap String.utf8EncodeChar).toByteArray = a.toList.utf8Encode := rfl
  rw [map_ofNat_bytes]
  exact List.toByteArray_inj.mp (hget.symm.trans hencode.symm)

end Lib.Utf8
