/-
V12.Engine.Number — `number_to_string` of `v12-engine/src/builtins/number.rs`.

The layout is written once more here, over the same text of the host; but for a
negative zero it is that of the interpreter (`numberToString_eq`).
-/
import V12.Interp.NumberText

namespace V12.Engine

open Lib.Binary64 Lib.Decimal
open V12.Interp (ShortestDigits Scientific pointed signText zeros)

def numberToString (host : ShortestDigits) (n : BitVec 64) : List Char :=
  if IsNaN n then "NaN".toList
  else if ¬ IsFinite n then
    if negative n = false then "Infinity".toList else "-Infinity".toList
  else if units n = 0 then "0".toList
  else
    let sci := host.lowerExp n
    let negative := sci.mantissa.head? = some '-'
    let digits := (sci.mantissa.dropWhile (· = '-')).filter (· ≠ '.')
    let k : Int := digits.length
    let n10 := sci.exp + 1
    let out := if negative then ['-'] else []
    if k ≤ n10 ∧ n10 ≤ 21 then out ++ digits ++ zeros (n10 - k)
    else if 0 < n10 ∧ n10 ≤ 21 then
      out ++ digits.take n10.toNat ++ '.' :: digits.drop n10.toNat
    else if -6 < n10 ∧ n10 ≤ 0 then out ++ '0' :: '.' :: zeros (-n10) ++ digits
    else
      out ++ digits.take 1 ++ (if k > 1 then '.' :: digits.drop 1 else []) ++
        'e' :: (if n10 - 1 ≥ 0 then '+' else '-') :: Nat.toDigits 10 (n10 - 1).natAbs

section Texts

variable (host : ShortestDigits) {x : BitVec 64}

theorem digits_of_pointed {ds : List Char} (h : ∀ c ∈ ds, c.isDigit = true) (hne : ds ≠ [])
    (s : Bool) :
    (((if s then ['-'] else []) ++ pointed ds).dropWhile (· = '-')).filter (· ≠ '.') = ds := by
  have hpoint : ∀ c ∈ ds, decide (c ≠ '.') = true := by
    intro c hc
    refine decide_eq_true ?_
    rintro rfl
    exact absurd (h '.' hc) (by decide)
  have hstart : (pointed ds).dropWhile (· = '-') = pointed ds := by
    match ds with
    | [] => rfl
    | d :: rest =>
      have hd : d ≠ '-' := by
        rintro rfl
        exact absurd (h '-' List.mem_cons_self) (by decide)
      cases rest with
      | nil => exact List.dropWhile_cons_of_neg (by simpa using hd)
      | cons d' rest => exact List.dropWhile_cons_of_neg (by simpa using hd)
  have hdrop : ((if s then ['-'] else []) ++ pointed ds).dropWhile (· = '-') = pointed ds := by
    cases s with
    | false => exact hstart
    | true => exact (List.dropWhile_cons_of_pos (by decide)).trans hstart
  rw [hdrop]
  match ds with
  | [] => exact absurd rfl hne
  | [d] => exact List.filter_eq_self.mpr hpoint
  | d :: d' :: rest =>
    have hrest : (d' :: rest).filter (· ≠ '.') = d' :: rest :=
      List.filter_eq_self.mpr fun c hc => hpoint c (List.mem_cons_of_mem d hc)
    have hfirst := hpoint d List.mem_cons_self
    have htail : ('.' :: d' :: rest).filter (· ≠ '.') = d' :: rest := by
      rw [List.filter_cons_of_neg (by decide), hrest]
    exact (List.filter_cons_of_pos (p := fun c => decide (c ≠ '.')) hfirst).trans
      (congrArg (d :: ·) htail)

/-- **The layouts of the engine and of the interpreter are the same.** -/
theorem numberToString_eq (h : ¬ Interp.NegativeZero x) :
    numberToString host x = Interp.numberToString host x := by
  by_cases hnan : IsNaN x
  · rw [numberToString, Interp.numberToString, if_pos hnan, if_pos hnan]
  by_cases hfin : IsFinite x
  · have hinf : ∀ neg, x ≠ infinity neg := by
      rintro neg rfl
      exact (infinity_spec neg).2.1 hfin
    by_cases hzero : units x = 0
    · have hpos : ¬ negative x = true := fun hneg => h ⟨hzero, hneg⟩
      rw [numberToString, Interp.numberToString, if_neg hnan, if_neg (not_not_intro hfin),
        if_pos hzero, if_neg hnan, if_neg (hinf false), if_neg (hinf true), if_pos hzero,
        if_neg hpos]
    · obtain ⟨-, hhead, hexp⟩ := Interp.lowerExp_parts host hzero
      have hdigits : ((host.lowerExp x).mantissa.dropWhile (· = '-')).filter (· ≠ '.') =
          host.digits x := by
        rw [ShortestDigits.lowerExp, if_neg hzero]
        exact digits_of_pointed (Interp.isDigit_toDigits _) Nat.toDigits_ne_nil _
      rw [Interp.numberToString_finite host hfin hzero]
      unfold numberToString
      rw [if_neg hnan, if_neg (not_not_intro hfin), if_neg hzero]
      simp only [hdigits, hhead, hexp]
      change (if _ then signText x ++ _ ++ _ else if _ then signText x ++ _ ++ _
        else if _ then signText x ++ _ ++ _ else signText x ++ _ ++ _ ++ _) = _
      have hlen : (host.digits x).length = len (host.significand (units x)) := rfl
      unfold Interp.layout
      rw [hlen]
      change _ = signText x ++ (if _ then if _ then host.digits x ++ _ else _ else _)
      generalize host.point x = n
      have hk := len_pos (host.significand (units x))
      generalize hlen' : len (host.significand (units x)) = k at hk
      generalize hds : host.digits x = ds
      have hds' : Nat.toDigits 10 (host.significand (units x)) = ds := hds
      rw [hds']
      by_cases hrange : -5 ≤ n ∧ n ≤ 21
      · rw [if_pos hrange]
        by_cases hkn : (k : Int) ≤ n
        · rw [if_pos ⟨hkn, hrange.2⟩, if_pos hkn, List.append_assoc]
        · rw [if_neg (fun h => hkn h.1), if_neg hkn]
          by_cases hn : 0 < n
          · rw [if_pos ⟨hn, hrange.2⟩, if_pos hn, List.append_assoc]
          · rw [if_neg (fun h => hn h.1), if_neg hn, if_pos (by omega), List.append_assoc]
      · have h1 : ¬ ((k : Int) ≤ n ∧ n ≤ 21) := by omega
        have h2 : ¬ (0 < n ∧ n ≤ 21) := by omega
        have h3 : ¬ (-6 < n ∧ n ≤ 0) := by omega
        rw [if_neg hrange, if_neg h1, if_neg h2, if_neg h3]
        have hsign : n - 1 ≥ 0 ↔ ¬ n < 0 := by omega
        have hone : (k : Int) > 1 ↔ ¬ k = 1 := by omega
        simp only [hsign, hone, ite_not]
        by_cases hk1 : k = 1
        · have htake : ds.take 1 = ds := by
            refine List.take_of_length_le ?_
            rw [← hds, hlen, hlen', hk1]
          simp [hk1, htake]
        · simp [hk1]
  · have hinf := (not_isFinite_iff.mp hfin).resolve_left hnan
    rw [numberToString, Interp.numberToString, if_neg hnan, if_pos hfin, if_neg hnan]
    cases hneg : negative x with
    | false =>
      rw [hneg] at hinf
      rw [if_pos rfl, if_pos hinf]
    | true =>
      rw [hneg] at hinf
      rw [if_neg (by decide), if_neg (by rw [hinf]; exact infinity_true_ne), if_pos hinf]

end Texts

end V12.Engine
