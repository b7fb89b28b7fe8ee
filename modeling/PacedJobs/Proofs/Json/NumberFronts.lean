import PacedJobs.Proofs.Decimal.Places
import PacedJobs.Proofs.Decimal.Range
import PacedJobs.Proofs.Json.Numbers

/-!
# Numbers that are cut off

A front of a number is a number, or it ends where a digit has to follow. A shorter number may be
larger, where digits of a negative exponent are missing; but it is not too large if the number is
not and the digits before its point fit 64 bits.
-/

namespace PacedJobs

namespace Json

/-! ### Reading that ends too early -/

section

variable {α β : Type}

/-- The text ended where more had to follow. -/
def Short (r : Except Fault α) : Prop :=
  ∃ f, r = .error f ∧ f.cause.category = .eof

theorem Short.bind {r : Except Fault α} (h : Short r) (f : α → Except Fault β) :
    Short (r >>= f) := by
  obtain ⟨e, rfl, he⟩ := h
  exact ⟨e, rfl, he⟩

/-- All of the text was taken in, or more had to follow. -/
def Cut (r : Except Fault (α × List Char)) : Prop :=
  (∃ x, r = .ok (x, [])) ∨ Short r

theorem prefix_append_cases {p s t : List α} (h : p <+: s ++ t) :
    p <+: s ∨ ∃ q, p = s ++ q ∧ q <+: t := by
  obtain ⟨r, hr⟩ := h
  rcases List.append_eq_append_iff.mp hr with ⟨u, rfl, -⟩ | ⟨q, rfl, rfl⟩
  · exact .inl (List.prefix_append p u)
  · exact .inr ⟨q, rfl, List.prefix_append q r⟩

end

namespace Literal

variable {l l' : Literal} {p t ds fraction : List Char}

/-! ### Fronts of literals -/

/-- What remains of a literal when characters at its end are missing. -/
inductive Front (l : Literal) : Literal → Prop
  | whole {ds : List Char} : ds <+: l.whole → Front l ⟨l.negative, ds, [], none⟩
  | fraction {ds : List Char} : ds <+: l.fraction → Front l ⟨l.negative, l.whole, ds, none⟩
  | exponent {negative : Bool} {ds ds' : List Char} : l.exponent = some (negative, ds) →
      ds' <+: ds → Front l ⟨l.negative, l.whole, l.fraction, some (negative, ds')⟩

theorem Run.of_isPrefix (h : Run ds) (hp : p <+: ds) (hne : p ≠ []) : Run p :=
  ⟨hne, fun c hc => h.2 c (hp.subset hc)⟩

theorem Whole.of_isPrefix (h : Whole ds) (hp : p <+: ds) (hne : p ≠ []) : Whole p := by
  obtain ⟨hrun, hzero⟩ := h
  refine ⟨hrun.of_isPrefix hp hne, fun hhead => ?_⟩
  obtain ⟨s, rfl⟩ := hp
  have hone := hzero (by rwa [List.head?_append_of_ne_nil _ hne])
  exact (List.append_eq_singleton_iff.mp hone).elim (fun h => absurd h.1 hne) And.left

section

variable {negative : Bool} {whole fraction fractionText exponentText q : List Char}
  {exponent : Option (Bool × List Char)}

theorem short_point (negative : Bool) (hwhole : Whole whole) :
    Short (readUnsigned negative (whole ++ ['.'])) := by
  have hread : readWhole (whole ++ ['.']) = .ok (whole, ['.']) :=
    readWhole_complete hwhole (by simp [NoDigit]; decide)
  simp only [readUnsigned, hread, ok_bind]
  exact Short.bind ⟨_, rfl, rfl⟩ _

theorem short_exponent (negative : Bool) (hwhole : Whole whole)
    (hfraction : FractionText fraction fractionText) {e : Char} (he : e = 'e' ∨ e = 'E')
    (hq : (splitSign q).2 = []) :
    Short (readUnsigned negative (whole ++ (fractionText ++ e :: q))) := by
  have hdigit : NoDigit (e :: q) := by rcases he with rfl | rfl <;> simp [NoDigit] <;> decide
  have hpoint : '.' ∉ (e :: q).head? := by rcases he with rfl | rfl <;> simp
  have hletter : (e = 'e' || e = 'E') = true := by simpa using he
  have hshort : Short (readExponent (e :: q)) := by
    refine ⟨.here .endOfValue [], ?_, rfl⟩
    simp only [readExponent, hletter, if_true, hq]
  simp only [readUnsigned, readWhole_complete hwhole (noDigit_fraction hfraction hdigit),
    readFraction_complete hfraction hdigit hpoint, ok_bind]
  exact hshort.bind _

theorem splitSign_of_isPrefix {sign : List Char} (h : SignText negative sign) (hq : q <+: sign) :
    (splitSign q).2 = [] := by
  cases h with
  | absent =>
    rw [List.prefix_nil.mp hq]
    rfl
  | plus | minus =>
    rcases List.prefix_cons_iff.mp hq with rfl | ⟨s, rfl, hs⟩
    · rfl
    · rw [List.prefix_nil.mp hs]
      rfl

theorem front_whole (hwhole : Whole whole) (hp : p <+: (if negative then ['-'] else []) ++ whole)
    (hne : p ≠ []) : Short (Literal.read p) ∨
      ∃ ds, ds <+: whole ∧ Written ⟨negative, ds, [], none⟩ p := by
  have hsplit : Short (Literal.read p) ∨
      ∃ ds, p = (if negative then ['-'] else []) ++ ds ∧ ds ≠ [] ∧ ds <+: whole := by
    cases negative with
    | false => exact .inr ⟨p, rfl, hne, hp⟩
    | true =>
      rcases List.prefix_cons_iff.mp hp with rfl | ⟨ds, rfl, hds⟩
      · exact absurd rfl hne
      by_cases hds' : ds = []
      · exact .inl ⟨.here .endOfValue [], by rw [hds']; rfl, rfl⟩
      · exact .inr ⟨ds, rfl, hds', hds⟩
  refine hsplit.imp_right ?_
  rintro ⟨ds, rfl, hds', hds⟩
  refine ⟨ds, hds, ?_⟩
  have hwritten : Written ⟨negative, ds, [], none⟩ _ :=
    .mk (hwhole.of_isPrefix hds hds') .absent .absent
  simpa using hwritten

theorem front_fraction (hwhole : Whole whole) (hfraction : FractionText fraction fractionText)
    (hq : q <+: fractionText) :
    Short (Literal.read ((if negative then ['-'] else []) ++ whole ++ q)) ∨
      ∃ ds, ds <+: fraction ∧
        Written ⟨negative, whole, ds, none⟩ ((if negative then ['-'] else []) ++ whole ++ q) := by
  have hsplit : Short (Literal.read ((if negative then ['-'] else []) ++ whole ++ q)) ∨
      ∃ ds, FractionText ds q ∧ ds <+: fraction := by
    cases hfraction with
    | absent =>
      rw [List.prefix_nil.mp hq]
      exact .inr ⟨[], .absent, List.nil_prefix⟩
    | present hrun =>
      rcases List.prefix_cons_iff.mp hq with rfl | ⟨ds, rfl, hds⟩
      · exact .inr ⟨[], .absent, List.nil_prefix⟩
      by_cases hds' : ds = []
      · rw [hds', read_append_whole negative hwhole]
        exact .inl (short_point negative hwhole)
      · exact .inr ⟨ds, .present (hrun.of_isPrefix hds hds'), hds⟩
  refine hsplit.imp_right ?_
  rintro ⟨ds, htext, hds⟩
  refine ⟨ds, hds, ?_⟩
  have hwritten : Written ⟨negative, whole, ds, none⟩ _ := .mk hwhole htext .absent
  simpa using hwritten

theorem front_exponent (hwhole : Whole whole) (hfraction : FractionText fraction fractionText)
    (hexponent : ExponentText exponent exponentText) (hq : q <+: exponentText) (hne : q ≠ []) :
    Short (Literal.read ((if negative then ['-'] else []) ++ whole ++ fractionText ++ q)) ∨
      ∃ negative' ds ds', exponent = some (negative', ds) ∧ ds' <+: ds ∧
        Written ⟨negative, whole, fraction, some (negative', ds')⟩
          ((if negative then ['-'] else []) ++ whole ++ fractionText ++ q) := by
  cases hexponent with
  | absent => exact absurd (List.prefix_nil.mp hq) hne
  | @present e negative' sign ds he hsign hrun =>
    rw [List.cons_append] at hq
    rcases List.prefix_cons_iff.mp hq with rfl | ⟨u, rfl, hu⟩
    · exact absurd rfl hne
    have hshort : (splitSign u).2 = [] → Short (Literal.read
        ((if negative then ['-'] else []) ++ whole ++ fractionText ++ e :: u)) := fun hsplit => by
      rw [List.append_assoc, read_append_whole negative hwhole]
      exact short_exponent negative hwhole hfraction he hsplit
    rcases prefix_append_cases hu with hu | ⟨ds', rfl, hds⟩
    · exact .inl (hshort (splitSign_of_isPrefix hsign hu))
    by_cases hds' : ds' = []
    · subst hds'
      rw [List.append_nil] at hshort ⊢
      exact .inl (hshort (splitSign_of_isPrefix hsign (List.prefix_refl sign)))
    · refine .inr ⟨negative', ds, ds', rfl, hds, ?_⟩
      exact .mk hwhole hfraction (.present he hsign (hrun.of_isPrefix hds hds'))

end

/-- What is left of a number is a number again, or it ends too early. -/
theorem Written.front (h : l.Written t) (hp : p <+: t) (hne : p ≠ []) :
    Short (Literal.read p) ∨ ∃ l', l.Front l' ∧ l'.Written p := by
  obtain ⟨hwhole, hfraction, hexponent⟩ := h
  rcases prefix_append_cases hp with hp | ⟨q, rfl, hq⟩
  · rcases prefix_append_cases hp with hp | ⟨q, rfl, hq⟩
    · refine (front_whole hwhole hp hne).imp_right ?_
      rintro ⟨ds, hds, hwritten⟩
      exact ⟨_, .whole hds, hwritten⟩
    · refine (front_fraction hwhole hfraction hq).imp_right ?_
      rintro ⟨ds, hds, hwritten⟩
      exact ⟨_, .fraction hds, hwritten⟩
  by_cases hq' : q = []
  · rw [hq', List.append_nil]
    refine (front_fraction hwhole hfraction (List.prefix_refl _)).imp_right ?_
    rintro ⟨ds, hds, hwritten⟩
    exact ⟨_, .fraction hds, hwritten⟩
  · refine (front_exponent hwhole hfraction hexponent hq hq').imp_right ?_
    rintro ⟨negative', ds, ds', heq, hds, hwritten⟩
    exact ⟨_, .exponent heq hds, hwritten⟩

/-! ### Fronts that are not too large -/

/-- The digits before the point fit 64 bits, or there is nothing else. -/
def Plain (l : Literal) : Prop :=
  Digits.value l.whole < Nat.pow 2 64 ∨ l.fraction = [] ∧ l.exponent = none

theorem isSome_number?_of_decimal (h : (Magnitude.ofDecimal? l.decimal.1 l.decimal.2).isSome) :
    l.number?.isSome := by
  unfold number?
  split
  · rfl
  · rwa [Option.isSome_map]

theorem isSome_ofDecimal?_of_number? (h : l.number?.isSome) (hinteger : l.isInteger = false) :
    (Magnitude.ofDecimal? l.decimal.1 l.decimal.2).isSome := by
  unfold number? at h
  rwa [if_neg (by simp [hinteger]), Option.isSome_map] at h

theorem decimal_fst_lt (l : Literal) : l.decimal.1 < Nat.pow 2 64 :=
  Digits.absorb_fst_lt (Digits.absorb_fst_lt (by decide))

theorem decimal_snd_le (h : Digits.value l.whole < Nat.pow 2 64) : l.decimal.2 ≤ l.stated := by
  have habsorb := Digits.absorb_of_lt h
  simp only [decimal, habsorb, List.length_nil]
  omega

theorem isSome_number?_of_nonpos (h : Digits.value l.whole < Nat.pow 2 64)
    (hstated : l.stated ≤ 0) : l.number?.isSome :=
  isSome_number?_of_decimal (Magnitude.isSome_ofDecimal?_of_nonpos l.decimal_fst_lt
    ((decimal_snd_le h).trans hstated))

/-- Where the digits before the point fit, a front has no larger exponent or none above zero. -/
theorem Front.isSome_of_fits (h : l.Front l') (hl : l.number?.isSome)
    (hfits : Digits.value l.whole < Nat.pow 2 64) : l'.number?.isSome := by
  cases h with
  | whole hds =>
    have hvalue := Digits.value_le_of_isPrefix hds
    exact isSome_number?_of_nonpos (hvalue.trans_lt hfits) le_rfl
  | fraction _ => exact isSome_number?_of_nonpos hfits le_rfl
  | @exponent negative ds ds' he hds =>
    cases negative with
    | true => exact isSome_number?_of_nonpos hfits (by simp [stated])
    | false =>
      have hdecimal := isSome_ofDecimal?_of_number? hl (by simp [isInteger, he])
      have hvalue := Digits.value_le_of_isPrefix hds
      refine isSome_number?_of_decimal ?_
      rcases hvalue.lt_or_eq with hlt | heq
      · refine Magnitude.isSome_ofDecimal?_of_lt l.decimal_fst_lt hdecimal ?_
        simp only [decimal, stated, he, Bool.false_eq_true, if_false]
        omega
      · simpa [decimal, stated, he, heq] using hdecimal

/-- Digits that do not fit are places, of which a front has fewer. -/
theorem Front.isSome_of_whole (h : l.Front l') (hl : l.number?.isSome) (hfraction : l.fraction = [])
    (hexponent : l.exponent = none) : l'.number?.isSome := by
  obtain ⟨negative, whole, fraction, exponent⟩ := l
  dsimp only at hfraction hexponent
  subst hfraction hexponent
  cases h with
  | @whole ds hds =>
    by_cases hfits : Digits.value ds < Nat.pow 2 64
    · exact isSome_number?_of_nonpos hfits le_rfl
    have hlarge : ¬ Digits.value whole < Nat.pow 2 64 := fun hlt =>
      hfits ((Digits.value_le_of_isPrefix hds).trans_lt hlt)
    have hinteger : isInteger ⟨negative, whole, [], none⟩ = false := by
      cases negative <;> simp [isInteger, Nat.pow_eq] at hlarge ⊢ <;> omega
    have hdecimal := isSome_ofDecimal?_of_number? hl hinteger
    obtain ⟨us, rfl⟩ := hds
    have hleft : (Digits.absorb (Nat.pow 2 64) 0 ds).2 ≠ [] :=
      (Digits.absorb_snd_eq_nil_iff (by decide)).not.mpr hfits
    refine isSome_number?_of_decimal ?_
    by_cases hus : us = []
    · simpa [hus] using hdecimal
    · have hplaces := List.length_pos_iff.mpr hus
      simp only [decimal, Digits.absorb_append hleft] at hdecimal
      refine Magnitude.isSome_ofDecimal?_of_lt (decimal_fst_lt _) hdecimal ?_
      simp only [decimal, stated, List.length_append]
      omega
  | fraction hds =>
    rw [List.prefix_nil.mp hds]
    exact hl
  | exponent he _ => cases he

theorem Front.isSome_number? (h : l.Front l') (hl : l.number?.isSome) (hplain : l.Plain) :
    l'.number?.isSome :=
  hplain.elim (h.isSome_of_fits hl) fun hwhole => h.isSome_of_whole hl hwhole.1 hwhole.2

theorem Written.cut_readNumber (h : l.Written t) (hl : l.number?.isSome) (hplain : l.Plain)
    (hp : p <+: t) (hne : p ≠ []) : Cut (readNumber p) := by
  rcases h.front hp hne with hshort | ⟨l', hfront, hwritten⟩
  · exact .inr (hshort.bind _)
  · obtain ⟨v, hv⟩ := Option.isSome_iff_exists.mp (hfront.isSome_number? hl hplain)
    have hbreak : Break [] := fun c hc => by cases hc
    have hread := hwritten.readNumber_eq (number?_eq_some_iff.mp hv) hbreak
    exact .inl ⟨v, by simpa using hread⟩

end Literal
end Json
end PacedJobs
