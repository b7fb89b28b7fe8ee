import Mathlib.Data.List.TakeWhile
import PacedJobs.Proofs.Decimal.Places
import PacedJobs.Proofs.Json.Strings

/-!
# Reading numbers

A number takes as many characters as belong to it, so its text is read in full when what follows
could not go on with it.
-/

namespace PacedJobs
namespace Json
namespace Literal

def NoDigit (s : List Char) : Prop :=
  ∀ c ∈ s.head?, Digits.isDigit c = false

/-- Nothing is next that could go on with a number. -/
def Break (s : List Char) : Prop :=
  ∀ c ∈ s.head?, Digits.isDigit c = false ∧ c ≠ '.' ∧ c ≠ 'e' ∧ c ≠ 'E'

theorem Break.noDigit {s : List Char} (h : Break s) : NoDigit s := fun c hc => (h c hc).1

theorem run_takeWhile {c : Char} {s : List Char} (h : Digits.isDigit c = true) :
    Run ((c :: s).takeWhile Digits.isDigit) := by
  refine ⟨by simp [h], fun d hd => ?_⟩
  exact List.mem_takeWhile_imp hd

theorem takeWhile_append_of_noDigit {ds rest : List Char} (hds : ∀ c ∈ ds, Digits.isDigit c = true)
    (hrest : NoDigit rest) :
    (ds ++ rest).takeWhile Digits.isDigit = ds ∧ (ds ++ rest).dropWhile Digits.isDigit = rest := by
  rw [List.takeWhile_append_of_pos hds, List.dropWhile_append_of_pos hds]
  cases rest with
  | nil => simp
  | cons c rest => simp [hrest c rfl]

theorem digit_ne {c : Char} (h : Digits.isDigit c = true) :
    c ≠ '+' ∧ c ≠ '-' ∧ c ≠ '.' ∧ c ≠ 'e' ∧ c ≠ 'E' := by
  refine ⟨?_, ?_, ?_, ?_, ?_⟩ <;> rintro rfl <;> revert h <;> decide

/-! ### The parts of a literal -/

theorem readWhole_sound {s rest ds : List Char} (h : readWhole s = .ok (ds, rest)) :
    s = ds ++ rest ∧ Whole ds := by
  have hzero : Whole ['0'] := ⟨⟨by simp, List.forall_mem_singleton.mpr rfl⟩, fun _ => rfl⟩
  unfold readWhole at h
  split at h
  · cases h
  next s =>
    split at h
    · split_ifs at h
      cases h
      exact ⟨rfl, hzero⟩
    · cases h
      exact ⟨rfl, hzero⟩
  next c s hne =>
    split_ifs at h with hc
    · cases h
      have hrun : Run (c :: s.takeWhile Digits.isDigit) := by
        simpa [hc] using run_takeWhile (s := s) hc
      refine ⟨by simp, hrun, fun hhead => ?_⟩
      exact absurd (by simpa using hhead) hne

theorem readWhole_complete {ds rest : List Char} (h : Whole ds) (hrest : NoDigit rest) :
    readWhole (ds ++ rest) = .ok (ds, rest) := by
  obtain ⟨⟨hne, hds⟩, hzero⟩ := h
  cases ds with
  | nil => exact absurd rfl hne
  | cons c ds =>
    by_cases hc : c = '0'
    · subst hc
      obtain rfl : ds = [] := by simpa using hzero rfl
      cases rest with
      | nil => rfl
      | cons d rest => simp [readWhole, hrest d rfl]
    · have htake :=
        takeWhile_append_of_noDigit (fun d hd => hds d (List.mem_cons_of_mem c hd)) hrest
      simp [readWhole, hds c List.mem_cons_self, htake]

theorem readFraction_sound {s rest ds : List Char} (h : readFraction s = .ok (ds, rest)) :
    ∃ t, s = t ++ rest ∧ FractionText ds t := by
  unfold readFraction at h
  split at h
  next s =>
    split at h
    · cases h
    next c s =>
      split_ifs at h with hc
      cases h
      exact ⟨'.' :: (c :: s).takeWhile Digits.isDigit, by simp, .present (run_takeWhile hc)⟩
  next =>
    cases h
    exact ⟨[], rfl, .absent⟩

theorem readFraction_complete {ds t rest : List Char} (h : FractionText ds t)
    (hrest : NoDigit rest) (hpoint : '.' ∉ rest.head?) :
    readFraction (t ++ rest) = .ok (ds, rest) := by
  cases h with
  | absent =>
    cases rest with
    | nil => rfl
    | cons c rest =>
      have hc : c ≠ '.' := by simpa using hpoint
      simp [readFraction, hc]
  | present hrun =>
    obtain ⟨hne, hds⟩ := hrun
    obtain ⟨htake, hdrop⟩ := takeWhile_append_of_noDigit hds hrest
    cases ds with
    | nil => exact absurd rfl hne
    | cons d ds =>
      rw [List.cons_append] at htake hdrop
      simp only [List.cons_append, readFraction, hds d List.mem_cons_self, if_true, htake, hdrop]

theorem splitSign_sound (s : List Char) :
    ∃ t, s = t ++ (splitSign s).2 ∧ SignText (splitSign s).1 t := by
  unfold splitSign
  split
  · exact ⟨['+'], rfl, .plus⟩
  · exact ⟨['-'], rfl, .minus⟩
  · exact ⟨[], rfl, .absent⟩

theorem splitSign_complete {negative : Bool} {t ds : List Char} (h : SignText negative t)
    (hds : Run ds) (rest : List Char) : splitSign (t ++ ds ++ rest) = (negative, ds ++ rest) := by
  cases h with
  | plus => rfl
  | minus => rfl
  | absent =>
    obtain ⟨hne, hds⟩ := hds
    cases ds with
    | nil => exact absurd rfl hne
    | cons d ds =>
      obtain ⟨hplus, hminus, -⟩ := digit_ne (hds d List.mem_cons_self)
      simp [splitSign, hplus, hminus]

theorem readExponent_sound {s rest : List Char} {e : Option (Bool × List Char)}
    (h : readExponent s = .ok (e, rest)) : ∃ t, s = t ++ rest ∧ ExponentText e t := by
  unfold readExponent at h
  split at h
  next c t =>
    split_ifs at h with hc
    · obtain ⟨sign, ht, hsign⟩ := splitSign_sound t
      generalize splitSign t = split at h ht hsign
      obtain ⟨negative, u⟩ := split
      dsimp only at h ht hsign
      split at h
      · cases h
      next d u =>
        split_ifs at h with hd
        cases h
        refine ⟨c :: sign ++ (d :: u).takeWhile Digits.isDigit, ?_,
          .present (by simpa using hc) hsign (run_takeWhile hd)⟩
        rw [ht, List.append_assoc, List.takeWhile_append_dropWhile, List.cons_append]
    · cases h
      exact ⟨[], rfl, .absent⟩
  · cases h
    exact ⟨[], rfl, .absent⟩

theorem readExponent_complete {e : Option (Bool × List Char)} {t rest : List Char}
    (h : ExponentText e t) (hrest : Break rest) : readExponent (t ++ rest) = .ok (e, rest) := by
  cases h with
  | absent =>
    cases rest with
    | nil => rfl
    | cons c rest =>
      obtain ⟨-, -, hlower, hupper⟩ := hrest c rfl
      simp [readExponent, hlower, hupper]
  | @present c negative sign ds hc hsign hrun =>
    have hsplit := splitSign_complete hsign hrun rest
    obtain ⟨hne, hds⟩ := hrun
    obtain ⟨htake, hdrop⟩ := takeWhile_append_of_noDigit hds hrest.noDigit
    cases ds with
    | nil => exact absurd rfl hne
    | cons d ds =>
      rw [List.append_assoc] at hsplit
      rw [List.cons_append] at htake hdrop hsplit
      simp only [List.cons_append, List.append_assoc, readExponent, hsplit]
      simp [hc, hds d List.mem_cons_self, htake, hdrop]

/-! ### Literals -/

theorem readUnsigned_sound {negative : Bool} {s rest : List Char} {l : Literal}
    (h : readUnsigned negative s = .ok (l, rest)) :
    ∃ t, (if negative then ['-'] else []) ++ s = t ++ rest ∧ l.Written t := by
  obtain ⟨⟨whole, s₁⟩, hwhole, hmore⟩ := bind_eq_ok.mp h
  obtain ⟨⟨fraction, s₂⟩, hfraction, hmore⟩ := bind_eq_ok.mp hmore
  obtain ⟨⟨exponent, s₃⟩, hexponent, hmore⟩ := bind_eq_ok.mp hmore
  cases hmore
  obtain ⟨rfl, hwholeText⟩ := readWhole_sound hwhole
  obtain ⟨fractionText, rfl, hfractionText⟩ := readFraction_sound hfraction
  obtain ⟨exponentText, rfl, hexponentText⟩ := readExponent_sound hexponent
  refine ⟨(if negative then ['-'] else []) ++ whole ++ fractionText ++ exponentText, ?_,
    .mk hwholeText hfractionText hexponentText⟩
  simp only [List.append_assoc]

theorem read_sound {s rest : List Char} {l : Literal} (h : read s = .ok (l, rest)) :
    ∃ t, s = t ++ rest ∧ l.Written t := by
  unfold read at h
  split at h
  · exact readUnsigned_sound h
  · exact readUnsigned_sound h

theorem noDigit_exponent {e : Option (Bool × List Char)} {t rest : List Char}
    (h : ExponentText e t) (hrest : Break rest) :
    NoDigit (t ++ rest) ∧ '.' ∉ (t ++ rest).head? := by
  cases h with
  | absent => exact ⟨hrest.noDigit, fun hmem => (hrest _ hmem).2.1 rfl⟩
  | present he _ _ => rcases he with rfl | rfl <;> simp [NoDigit] <;> decide

theorem noDigit_fraction {ds t rest : List Char} (h : FractionText ds t) (hrest : NoDigit rest) :
    NoDigit (t ++ rest) := by
  cases h with
  | absent => exact hrest
  | present _ =>
    intro c hc
    obtain rfl : '.' = c := by simpa using hc
    rfl

theorem read_append_whole (negative : Bool) {ds : List Char} (h : Whole ds) (s : List Char) :
    Literal.read ((if negative then ['-'] else []) ++ ds ++ s) = readUnsigned negative (ds ++ s) := by
  obtain ⟨⟨hne, hds⟩, -⟩ := h
  cases negative with
  | true => rfl
  | false =>
    cases ds with
    | nil => exact absurd rfl hne
    | cons d ds =>
      have hd := (digit_ne (hds d List.mem_cons_self)).2.1
      simp [Literal.read, hd]

theorem Written.read_eq {l : Literal} {t : List Char} (h : l.Written t) {rest : List Char}
    (hrest : Break rest) : Literal.read (t ++ rest) = .ok (l, rest) := by
  obtain ⟨hwhole, hfraction, hexponent⟩ := h
  rename_i fraction exponent
  obtain ⟨hdigit, hpoint⟩ := noDigit_exponent hexponent hrest
  have hreadWhole := readWhole_complete hwhole (noDigit_fraction hfraction hdigit)
  have hreadFraction := readFraction_complete hfraction hdigit hpoint
  rw [List.append_assoc, List.append_assoc, read_append_whole l.negative hwhole]
  simp only [readUnsigned, hreadWhole, hreadFraction, readExponent_complete hexponent hrest, ok_bind]
  rfl

/-! ### What they denote -/

theorem isInteger_iff {l : Literal} : l.isInteger = true ↔ ∃ n, l.Integral n := by
  constructor
  · intro h
    simp only [isInteger, Bool.and_eq_true, List.isEmpty_iff, Option.isNone_iff_eq_none] at h
    obtain ⟨⟨hfraction, hexponent⟩, hfits⟩ := h
    refine ⟨_, hfraction, hexponent, rfl, ?_, ?_⟩
    · intro hnegative
      simp [hnegative, Nat.pow_eq] at hfits ⊢
      omega
    · rw [fits_iff]
      cases hnegative : l.negative <;> simp [hnegative, Nat.pow_eq] at hfits ⊢ <;> omega
  · rintro ⟨n, hfraction, hexponent, rfl, hsigned, hfits⟩
    rw [fits_iff] at hfits
    cases hnegative : l.negative <;>
      simp [isInteger, hfraction, hexponent, hnegative, Nat.pow_eq] at hsigned hfits ⊢ <;> omega

section

variable {l : Literal} {kept excess taken dropped : List Char}

theorem decimal_eq (hwhole : l.whole = kept ++ excess) (hkept : Fills kept excess)
    (hfraction : l.fraction = taken ++ dropped) (htaken : Fills (kept ++ taken) dropped) :
    l.decimal = (Digits.value (kept ++ taken), l.stated + excess.length - taken.length) := by
  obtain ⟨hfits, hnext⟩ := htaken
  simp only [Digits.value, List.append_assoc, Digits.valueFrom_append 0 kept] at hfits hnext
  rw [decimal, hwhole, hfraction, Digits.absorb_eq_of_fits hkept.1 hkept.2]
  dsimp only
  rw [Digits.absorb_eq_of_fits hfits hnext, List.length_append, Nat.add_sub_cancel, Digits.value,
    Digits.valueFrom_append]

theorem exists_fills (l : Literal) : ∃ kept excess taken dropped, l.whole = kept ++ excess ∧
    Fills kept excess ∧ l.fraction = taken ++ dropped ∧ Fills (kept ++ taken) dropped := by
  obtain ⟨kept, excess, hwhole, -, hkept, hexcess⟩ :=
    Digits.exists_absorb (by decide : 0 < Nat.pow 2 64) l.whole
  obtain ⟨taken, dropped, hfraction, -, htaken, hdropped⟩ :=
    Digits.exists_absorb hkept l.fraction
  simp only [← Digits.valueFrom_append, ← List.append_assoc] at htaken hdropped
  exact ⟨kept, excess, taken, dropped, hwhole, ⟨hkept, hexcess⟩, hfraction, htaken, hdropped⟩

theorem rounded_iff {m : Magnitude} :
    l.Rounded m ↔ Magnitude.Scaled l.decimal.1 l.decimal.2 m := by
  constructor
  · rintro ⟨hwhole, hkept, hfraction, htaken, hm⟩
    rwa [decimal_eq hwhole hkept hfraction htaken]
  · intro hm
    obtain ⟨kept, excess, taken, dropped, hwhole, hkept, hfraction, htaken⟩ := l.exists_fills
    rw [decimal_eq hwhole hkept hfraction htaken] at hm
    exact .mk hwhole hkept hfraction htaken hm

end

theorem number?_eq_some_iff {l : Literal} {v : Json} : l.number? = some v ↔ l.Denotes v := by
  unfold number?
  by_cases hinteger : l.isInteger = true
  · obtain ⟨n, hn⟩ := isInteger_iff.mp hinteger
    rw [if_pos hinteger, ← hn.value_eq, Option.some_inj]
    constructor
    · rintro rfl
      exact .integer hn
    · intro h
      cases h with
      | integer hm => rw [hn.value_eq, hm.value_eq]
      | double hnone _ => exact absurd hn (hnone n)
  · have hnone : ∀ n, ¬ l.Integral n := fun n hn => hinteger (isInteger_iff.mpr ⟨n, hn⟩)
    rw [if_neg hinteger, Option.map_eq_some_iff]
    constructor
    · rintro ⟨m, hm, rfl⟩
      exact .double hnone (rounded_iff.mpr (Magnitude.ofDecimal?_eq_some_iff.mp hm))
    · intro h
      cases h with
      | integer hn => exact absurd hn (hnone _)
      | double _ hm => exact ⟨_, Magnitude.ofDecimal?_eq_some_iff.mpr (rounded_iff.mp hm), rfl⟩

end Literal

theorem readNumber_sound {s rest : List Char} {v : Json} (h : readNumber s = .ok (v, rest)) :
    ∃ (t : List Char) (l : Literal), s = t ++ rest ∧ l.Written t ∧ l.Denotes v := by
  obtain ⟨⟨l, s'⟩, hread, hmore⟩ := bind_eq_ok.mp h
  obtain ⟨t, rfl, ht⟩ := Literal.read_sound hread
  dsimp only at hmore
  split at hmore
  next w hw =>
    cases hmore
    exact ⟨t, l, rfl, ht, Literal.number?_eq_some_iff.mp hw⟩
  next => cases hmore

theorem Literal.Written.readNumber_eq {l : Literal} {t rest : List Char} {v : Json}
    (h : l.Written t) (hv : l.Denotes v) (hrest : Literal.Break rest) :
    readNumber (t ++ rest) = .ok (v, rest) := by
  simp only [readNumber, h.read_eq hrest, ok_bind, Literal.number?_eq_some_iff.mpr hv]
  rfl

theorem Literal.Written.head {l : Literal} {t : List Char} (h : l.Written t) :
    ∃ c u, t = c :: u ∧ (c = '-' ∨ Digits.isDigit c = true) := by
  obtain ⟨⟨⟨hne, hds⟩, -⟩, -, -⟩ := h
  cases l.negative with
  | true => exact ⟨'-', _, rfl, .inl rfl⟩
  | false =>
    cases hw : l.whole with
    | nil => exact absurd hw hne
    | cons d ds => exact ⟨d, _, rfl, .inr (hds d (by simp [hw]))⟩

end Json
end PacedJobs
