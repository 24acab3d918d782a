/-
V12.Lib.EncodedSearch — a text is searched in, and replaced in, as its code units are.

No occurrence of a text in the code units of another begins inside a character:
the units of a text do not begin with a low surrogate.
-/
import V12.Lib.Occurrences
import V12.Lib.Surrogates

namespace Lib.Utf16

open Lib.Occurrences

theorem paired_encode (t : List Char) : Paired (encode t) := by
  rw [← lossy_eq_self_iff, lossy, decode_encode]

theorem encode_prefix_iff {a b : List Char} : encode a <+: encode b ↔ a <+: b := by
  constructor
  · rintro ⟨rest, hrest⟩
    have hlossy := lossy_append_of_paired (paired_encode a) rest
    rw [hrest, lossy_eq_self_iff.mpr (paired_encode b)] at hlossy
    have htext : encode b = encode (a ++ decode rest) := by rw [hlossy, encode_append]; rfl
    exact ⟨decode rest, (encode_injective htext).symm⟩
  · rintro ⟨rest, rfl⟩
    exact ⟨encode rest, (encode_append a rest).symm⟩

theorem encode_eq_nil {t : List Char} : encode t = [] ↔ t = [] := by
  constructor
  · intro h
    exact encode_injective (h.trans encode_nil.symm)
  · rintro rfl
    rfl

theorem encodeChar_cases (c : Char) : (∃ u, encodeChar c = [u]) ∨
    ∃ u w, encodeChar c = [u, w] ∧ IsLow w := by
  unfold encodeChar
  split
  case isTrue => exact .inl ⟨_, rfl⟩
  case isFalse h =>
    refine .inr ⟨_, _, rfl, ?_⟩
    unfold IsLow
    rw [BitVec.toNat_ofNat, Nat.mod_eq_of_lt (by omega)]
    omega

theorem not_prefix_low {t : List Char} (ht : t ≠ []) {w : BitVec 16} (hw : IsLow w)
    (s : List (BitVec 16)) : ¬ encode t <+: w :: s := by
  rintro ⟨rest, hrest⟩
  cases hunits : encode t with
  | nil => exact ht (encode_eq_nil.mp hunits)
  | cons u units =>
    rw [hunits, List.cons_append, List.cons.injEq] at hrest
    refine not_lowHead_of_paired (paired_encode t) ⟨w, ?_, hw⟩
    rw [hunits, hrest.1]
    rfl

variable {n : List Char}

theorem replaceOnce_encodeChar {c : Char} {t : List Char} (hn : n ≠ []) (h : ¬ n <+: c :: t)
    (z : List (BitVec 16)) : replaceOnce (encode n) z (encodeChar c ++ encode t) =
      encodeChar c ++ replaceOnce (encode n) z (encode t) := by
  rw [← encode_prefix_iff, encode_cons] at h
  rcases encodeChar_cases c with ⟨u, hu⟩ | ⟨u, w, hu, hw⟩
  · rw [hu] at h ⊢
    exact replaceOnce_pass h
  · rw [hu] at h ⊢
    change ¬ encode n <+: u :: w :: encode t at h
    rw [List.cons_append, List.singleton_append, replaceOnce_pass h,
      replaceOnce_pass (not_prefix_low hn hw _)]
    rfl

theorem replaceAll_encodeChar {c : Char} {t : List Char} (hn : n ≠ []) (h : ¬ n <+: c :: t)
    (z : List (BitVec 16)) : replaceAll (encode n) z 0 (encodeChar c ++ encode t) =
      encodeChar c ++ replaceAll (encode n) z 0 (encode t) := by
  rw [← encode_prefix_iff, encode_cons] at h
  rcases encodeChar_cases c with ⟨u, hu⟩ | ⟨u, w, hu, hw⟩
  · rw [hu] at h ⊢
    exact replaceAll_pass h
  · rw [hu] at h ⊢
    change ¬ encode n <+: u :: w :: encode t at h
    rw [List.cons_append, List.singleton_append, replaceAll_pass h,
      replaceAll_pass (not_prefix_low hn hw _)]
    rfl

/-- **Replacing in a text** is replacing in its code units. -/
theorem replaceOnce_encode (hn : n ≠ []) (z t : List Char) :
    replaceOnce (encode n) (encode z) (encode t) = encode (replaceOnce n z t) := by
  induction t with
  | nil =>
    rw [encode_nil, replaceOnce, replaceOnce, if_neg hn, if_neg (mt encode_eq_nil.mp hn), encode_nil]
  | cons c t ih =>
    by_cases h : n <+: c :: t
    · obtain ⟨rest, hrest⟩ := h
      rw [← hrest, encode_append, replaceOnce_front, replaceOnce_front, encode_append]
    · rw [encode_cons, replaceOnce_encodeChar hn h, ih, replaceOnce_pass h, encode_cons]

theorem replaceAll_encode (hn : n ≠ []) (z t : List Char) :
    replaceAll (encode n) (encode z) 0 (encode t) = encode (replaceAll n z 0 t) := by
  induction hlength : t.length using Nat.strong_induction_on generalizing t with
  | _ k ih =>
    cases t with
    | nil => rfl
    | cons c t =>
      by_cases h : n <+: c :: t
      · obtain ⟨rest, hrest⟩ := h
        have hpos := List.length_pos_iff.mpr hn
        have hshort := congrArg List.length hrest
        rw [List.length_append] at hshort
        rw [← hrest, encode_append, replaceAll_front (mt encode_eq_nil.mp hn),
          replaceAll_front hn, encode_append, ih rest.length (by omega) rest rfl]
      · rw [encode_cons, replaceAll_encodeChar hn h, replaceAll_pass h, encode_cons,
          ih t.length (by rw [← hlength, List.length_cons]; omega) t rfl]

theorem infix_encode_iff (hn : n ≠ []) {t : List Char} : encode n <:+: encode t ↔ n <:+: t := by
  induction t with
  | nil => rw [encode_nil, List.infix_nil, List.infix_nil, encode_eq_nil]
  | cons c t ih =>
    rw [List.infix_cons_iff, ← ih, ← encode_prefix_iff, encode_cons]
    rcases encodeChar_cases c with ⟨u, hu⟩ | ⟨u, w, hu, hw⟩
    · rw [hu]
      exact List.infix_cons_iff
    · rw [hu, List.cons_append, List.infix_cons_iff, List.singleton_append, List.infix_cons_iff,
        or_iff_right (not_prefix_low hn hw _)]

end Lib.Utf16
