import SiteCompiler.Proofs.Lexical.Rules

/-!
# Numerals

The reader of numbers takes its digits in one pass and never looks back.  This
module shows that it stops exactly where the longest numeral ends.

* `IsNumeral.length_le_or_fraction` - how far a numeral can reach.
* `isLongest_take_numeral` - the characters the reader takes are the longest numeral.
* `numeral_eq_length` - it takes every longest numeral in full.
-/

namespace SiteCompiler
namespace Lexical

/-! ## Classes and runs -/

theorem ne_of_class {cls : Char → Bool} {c d : Char} (hc : cls c = true) (hd : cls d = false) :
    c ≠ d := by
  rintro rfl
  rw [hc] at hd
  contradiction

theorem take_run (cls : Char → Bool) (cs : List Char) :
    cs.take (run cls cs) = cs.takeWhile cls := by
  exact (List.prefix_iff_eq_take.mp (List.takeWhile_prefix cls)).symm

theorem takeWhile_append_drop_run (cls : Char → Bool) (cs : List Char) :
    cs.takeWhile cls ++ cs.drop (run cls cs) = cs := by
  rw [← take_run, List.take_append_drop]

/-- A run and the character that ends it. -/
theorem take_run_succ {cls : Char → Bool} {cs after : List Char} {c : Char}
    (h : cs.drop (run cls cs) = c :: after) :
    cs.take (run cls cs + 1) = cs.takeWhile cls ++ [c] := by
  rw [List.take_add, h, take_run, List.take_succ_cons, List.take_zero]

/-- A run of digits, a point behind it, and the digits behind the point. -/
theorem take_fraction {cs fraction : List Char}
    (h : cs.drop (run Char.isDigit cs) = '.' :: fraction) :
    cs.take (run Char.isDigit cs + 1 + run Char.isDigit fraction) =
      cs.takeWhile Char.isDigit ++ '.' :: fraction.takeWhile Char.isDigit := by
  rw [Nat.add_assoc, List.take_add, take_run, h, Nat.add_comm 1, List.take_succ_cons, take_run]

theorem run_cons_of_pos {cls : Char → Bool} {c : Char} (h : cls c = true) (cs : List Char) :
    run cls (c :: cs) = run cls cs + 1 := by
  simp [run, h]

/-! ## Where the longest numeral ends -/

theorem IsDigits.append {digits more : List Char} (h : IsDigits digits)
    (hmore : ∀ c ∈ more, c.isDigit = true) : IsDigits (digits ++ more) := by
  refine ⟨by simp [h.1], ?_⟩
  intro c hc
  rcases List.mem_append.mp hc with hc | hc
  · exact h.2 c hc
  · exact hmore c hc

/-- A sign is decided by the first character, since a hyphen is no digit. -/
theorem sign_unique {sign sign' digits digits' rest rest' : List Char}
    (hsign : IsSign sign) (hsign' : IsSign sign')
    (hdigits : IsDigits digits) (hdigits' : IsDigits digits')
    (happend : sign ++ (digits ++ rest) = sign' ++ (digits' ++ rest')) :
    sign = sign' ∧ digits ++ rest = digits' ++ rest' := by
  have hyphen {ds : List Char} (hds : IsDigits ds) {xs ys : List Char}
      (h : ds ++ xs = '-' :: ys) : False := by
    cases ds with
    | nil => exact hds.1 rfl
    | cons d ds =>
        have hd : d.isDigit = true := hds.2 d (by simp)
        exact ne_of_class hd (by decide) (List.cons.inj h).1
  rcases hsign with rfl | rfl <;> rcases hsign' with rfl | rfl
  · exact ⟨rfl, happend⟩
  · exact (hyphen hdigits happend).elim
  · exact (hyphen hdigits' happend.symm).elim
  · exact ⟨rfl, List.append_cancel_left happend⟩

/-- A numeral at the front of a sign and a run of digits ends in that run, or it goes on behind
the whole of it with a point and further digits. -/
theorem IsNumeral.length_le_or_fraction {sign digits rest other more : List Char}
    (hother : IsNumeral other) (hsign : IsSign sign) (hdigits : IsDigits digits)
    (hrun : IsRun Char.isDigit digits rest)
    (happend : other ++ more = sign ++ (digits ++ rest)) :
    other.length ≤ (sign ++ digits).length ∨
      ∃ decimals, other = sign ++ (digits ++ '.' :: decimals) ∧ IsDigits decimals ∧
        rest = '.' :: (decimals ++ more) := by
  cases hother with
  | @whole sign' digits' hsign' hdigits' =>
      rw [List.append_assoc] at happend
      obtain ⟨rfl, hrest⟩ := sign_unique hsign' hsign hdigits' hdigits happend
      have hle : digits'.length ≤ digits.length := hrun.length_le hdigits'.2 hrest
      left
      simp only [List.length_append]
      omega
  | @fraction sign' digits' decimals hsign' hdigits' hdecimals =>
      simp only [List.append_assoc, List.cons_append] at happend
      obtain ⟨rfl, hrest⟩ := sign_unique hsign' hsign hdigits' hdigits happend
      have hrun' : IsRun Char.isDigit digits' ('.' :: (decimals ++ more)) :=
        ⟨hdigits'.2, by simp⟩
      obtain ⟨rfl, hpoint⟩ := hrun'.unique hrun hrest
      exact .inr ⟨decimals, rfl, hdecimals, hpoint.symm⟩

theorem isLongest_whole {sign digits rest : List Char} (hsign : IsSign sign)
    (hdigits : IsDigits digits) (hrun : IsRun Char.isDigit digits rest)
    (hpoint : ∀ d ds, rest = '.' :: d :: ds → d.isDigit = false) :
    IsLongest IsNumeral (sign ++ digits) rest := by
  refine ⟨.whole hsign hdigits, ?_⟩
  rintro other ⟨more, happend⟩ hother
  rw [List.append_assoc] at happend
  rcases hother.length_le_or_fraction hsign hdigits hrun happend with
    hle | ⟨decimals, -, hdecimals, hrest⟩
  · exact hle
  · -- Decimals would have to begin with a digit behind the point.
    cases decimals with
    | nil => exact (hdecimals.1 rfl).elim
    | cons d ds =>
        have hd : d.isDigit = true := hdecimals.2 d (by simp)
        rw [hpoint d (ds ++ more) hrest] at hd
        contradiction

theorem isLongest_fraction {sign digits decimals rest : List Char} (hsign : IsSign sign)
    (hdigits : IsDigits digits) (hdecimals : IsDigits decimals)
    (hrun : IsRun Char.isDigit decimals rest) :
    IsLongest IsNumeral (sign ++ (digits ++ '.' :: decimals)) rest := by
  refine ⟨.fraction hsign hdigits hdecimals, ?_⟩
  rintro other ⟨more, happend⟩ hother
  simp only [List.append_assoc, List.cons_append] at happend
  have hwhole : IsRun Char.isDigit digits ('.' :: (decimals ++ rest)) :=
    ⟨hdigits.2, by simp⟩
  rcases hother.length_le_or_fraction hsign hdigits hwhole happend with
    hle | ⟨decimals', rfl, hdecimals', hrest⟩
  · simp only [List.length_append, List.length_cons] at hle ⊢
    omega
  · have hle : decimals'.length ≤ decimals.length :=
      hrun.length_le hdecimals'.2 (List.cons.inj hrest).2.symm
    simp only [List.length_append, List.length_cons]
    omega

/-! ## The reader of numbers -/

/-- What has been read in front of `cs` begins a numeral: a digit, or a hyphen before a digit. -/
inductive NumeralStart : Char → List Char → Prop
  | digit {c : Char} {cs : List Char} : c.isDigit = true → NumeralStart c cs
  | hyphen {d : Char} {cs : List Char} : d.isDigit = true → NumeralStart '-' (d :: cs)

/-- The part of a numeral start that belongs to its digits. -/
theorem NumeralStart.split {c : Char} {cs : List Char} (h : NumeralStart c cs) :
    ∃ sign lead, [c] = sign ++ lead ∧ IsSign sign ∧
      IsDigits (lead ++ cs.takeWhile Char.isDigit) ∧ ∀ d ∈ lead, d.isDigit = true := by
  cases h with
  | digit hc =>
      refine ⟨[], [c], rfl, .inl rfl, ?_, by simpa using hc⟩
      exact IsDigits.append ⟨by simp, by simpa using hc⟩ (isRun_takeWhile _ _).all
  | @hyphen d cs hd =>
      refine ⟨['-'], [], rfl, .inr rfl, ⟨?_, ?_⟩, by simp⟩
      · simp [hd]
      · exact (isRun_takeWhile Char.isDigit (d :: cs)).all

/-- The reader of numerals stops at the end of the longest one. -/
theorem isLongest_take_numeral {c : Char} {cs : List Char} (h : NumeralStart c cs) :
    IsLongest IsNumeral (c :: cs.take (Reading.numeral cs)) (cs.drop (Reading.numeral cs)) := by
  obtain ⟨sign, lead, hlead, hsign, hdigits, hleadDigits⟩ := h.split
  have htail := isRun_takeWhile Char.isDigit cs
  have hrun : IsRun Char.isDigit (lead ++ cs.takeWhile Char.isDigit)
      (cs.drop (run Char.isDigit cs)) := ⟨hdigits.2, htail.stops⟩
  have hcons (text : List Char) : c :: text = sign ++ (lead ++ text) := by
    rw [← List.append_assoc, ← hlead, List.singleton_append]
  -- The reader looks at the point, and then at whether digits follow it.
  simp only [Reading.numeral]
  split
  case h_1 fraction hpoint =>
    have hdecimals := isRun_takeWhile Char.isDigit fraction
    split
    case isTrue hnone =>
      rw [take_run, hcons]
      refine isLongest_whole hsign hdigits hrun ?_
      rintro d ds hds
      rw [hpoint] at hds
      obtain rfl : fraction = d :: ds := (List.cons.inj hds).2
      rw [hnone] at hdecimals
      exact hdecimals.stops d rfl
    case isFalse hsome =>
      have hdrop : cs.drop (run Char.isDigit cs + 1 + run Char.isDigit fraction) =
          fraction.drop (run Char.isDigit fraction) := by
        rw [← List.drop_drop, ← List.drop_drop, hpoint, List.drop_succ_cons, List.drop_zero]
      rw [take_fraction hpoint, hdrop, hcons, ← List.append_assoc lead]
      refine isLongest_fraction hsign hdigits ⟨?_, hdecimals.all⟩ hdecimals
      intro hnil
      exact hsome (by simp [run, hnil])
  case h_2 hpoint =>
    rw [take_run, hcons]
    refine isLongest_whole hsign hdigits hrun ?_
    intro d ds hds
    exact (hpoint (d :: ds) hds).elim

/-- A longest numeral begins as the reader of numerals expects it. -/
theorem IsNumeral.start {text : List Char} (h : IsNumeral text) (rest : List Char) :
    ∃ c cs, text = c :: cs ∧ NumeralStart c (cs ++ rest) := by
  have hsigned {sign digits : List Char} (hsign : IsSign sign) (hdigits : IsDigits digits)
      (more : List Char) : ∃ c cs, sign ++ (digits ++ more) = c :: cs ∧
        NumeralStart c (cs ++ rest) := by
    obtain ⟨hne, hall⟩ := hdigits
    obtain ⟨d, ds, rfl⟩ := List.exists_cons_of_ne_nil hne
    have hd : d.isDigit = true := hall d (by simp)
    rcases hsign with rfl | rfl
    · exact ⟨d, ds ++ more, rfl, .digit hd⟩
    · exact ⟨'-', d :: (ds ++ more), rfl, .hyphen hd⟩
  cases h with
  | whole hsign hdigits => simpa using hsigned hsign hdigits []
  | fraction hsign hdigits _ => exact hsigned hsign hdigits _

/-- Of every longest numeral the reader takes what stands behind the first character. -/
theorem numeral_eq_length {c : Char} {cs rest : List Char}
    (hlongest : IsLongest IsNumeral (c :: cs) rest) (hstart : NumeralStart c (cs ++ rest)) :
    Reading.numeral (cs ++ rest) = cs.length := by
  have htaken := isLongest_take_numeral hstart
  have happend : c :: (cs ++ rest).take (Reading.numeral (cs ++ rest)) ++
      (cs ++ rest).drop (Reading.numeral (cs ++ rest)) = c :: cs ++ rest := by
    rw [List.cons_append, List.take_append_drop, List.cons_append]
  have htext := (List.cons.inj (htaken.unique hlongest happend).1).2
  calc
    Reading.numeral (cs ++ rest) =
        ((cs ++ rest).take (Reading.numeral (cs ++ rest))).length := by
      rw [List.length_take, Nat.min_eq_left (Reading.numeral_le _)]
    _ = cs.length := by rw [htext]

end Lexical
end SiteCompiler
