import PacedJobs.Proofs.Json.Grammar

/-!
# Reading strings

The reader of strings takes the texts of the grammar and no others, and gives the characters that
they spell. It stops behind the closing quotation mark, so a bound as long as the text is enough.
-/

namespace PacedJobs
namespace Json

section

variable {ε α β : Type} {x : Except ε α} {f : α → Except ε β} {b : β}

theorem bind_eq_ok : (x >>= f) = .ok b ↔ ∃ a, x = .ok a ∧ f a = .ok b := by
  cases x with
  | error e => simp [bind, Except.bind]
  | ok a => simp [bind, Except.bind]

theorem map_eq_ok {g : α → β} : x.map g = .ok b ↔ ∃ a, x = .ok a ∧ g a = b := by
  cases x <;> simp [Except.map]

@[simp] theorem ok_bind (a : α) : ((Except.ok a : Except ε α) >>= f) = f a := rfl

end

namespace Escaped

theorem hexValue?_length {hs : List Char} {n : Nat} (h : hexValue? hs = some n) :
    hs.length = 4 := by
  unfold hexValue? at h
  split at h
  · rfl
  · cases h

theorem readHex_eq_ok_iff {s rest : List Char} {n : Nat} :
    readHex s = .ok (n, rest) ↔ ∃ hs, s = hs ++ rest ∧ hexValue? hs = some n := by
  unfold readHex
  constructor
  · intro h
    split at h
    next m hm =>
      cases h
      exact ⟨s.take 4, (List.take_append_drop 4 s).symm, hm⟩
    next => split at h <;> cases h
  · rintro ⟨hs, rfl, hhs⟩
    have hlength := hexValue?_length hhs
    rw [List.take_append_of_le_length hlength.ge, List.take_of_length_le hlength.le, hhs]
    simp [hlength]

theorem readMark_eq_ok_iff {mark : Char} {s rest : List Char} :
    readMark mark s = .ok rest ↔ s = mark :: rest := by
  cases s with
  | nil => simp [readMark]
  | cons c s =>
    by_cases hc : c = mark <;> simp [readMark, hc]

theorem isTrailing_of_isLeading {n : Nat} (h : isLeading n = true) : isTrailing n = false := by
  simp only [isLeading, isTrailing, Bool.and_eq_true, decide_eq_true_eq, Bool.and_eq_false_imp,
    decide_eq_false_iff_not] at h ⊢
  omega

theorem readUnicode_sound {s rest : List Char} {c : Char} (h : readUnicode s = .ok (c, rest)) :
    ∃ t, s = t ++ rest ∧ Spelled ('\\' :: 'u' :: t) c := by
  obtain ⟨⟨n, s₁⟩, hhex, hnumber⟩ := bind_eq_ok.mp h
  obtain ⟨hs, rfl, hn⟩ := readHex_eq_ok_iff.mp hhex
  dsimp only at hnumber
  split_ifs at hnumber with htrailing hleading
  · obtain ⟨s₂, hmark, hrest⟩ := bind_eq_ok.mp hnumber
    obtain ⟨s₃, hletter, hrest⟩ := bind_eq_ok.mp hrest
    obtain ⟨⟨m, s₄⟩, hhex', hpair⟩ := bind_eq_ok.mp hrest
    obtain rfl := readMark_eq_ok_iff.mp hmark
    obtain rfl := readMark_eq_ok_iff.mp hletter
    obtain ⟨hs', rfl, hm⟩ := readHex_eq_ok_iff.mp hhex'
    dsimp only at hpair
    split_ifs at hpair with htrailing'
    simp only [pure, Except.pure, Except.ok.injEq, Prod.mk.injEq] at hpair
    obtain ⟨rfl, rfl⟩ := hpair
    exact ⟨hs ++ '\\' :: 'u' :: hs', by simp, .pair hn hm hleading htrailing'⟩
  · cases hnumber
    exact ⟨hs, rfl, .code hn (by simpa using hleading) (by simpa using htrailing)⟩

theorem readUnicode_code {hs : List Char} {n : Nat} (h : hexValue? hs = some n)
    (hleading : isLeading n = false) (htrailing : isTrailing n = false) (rest : List Char) :
    readUnicode (hs ++ rest) = .ok (Char.ofNat n, rest) := by
  have hhex : readHex (hs ++ rest) = .ok (n, rest) := readHex_eq_ok_iff.mpr ⟨hs, rfl, h⟩
  simp [readUnicode, hhex, hleading, htrailing, pure, Except.pure]

theorem readUnicode_pair {hs hs' : List Char} {n m : Nat} (h : hexValue? hs = some n)
    (h' : hexValue? hs' = some m) (hleading : isLeading n = true) (htrailing : isTrailing m = true)
    (rest : List Char) : readUnicode (hs ++ '\\' :: 'u' :: hs' ++ rest) =
      .ok (Char.ofNat ((n - 0xD800) * 0x400 + (m - 0xDC00) + 0x10000), rest) := by
  have hhex : readHex (hs ++ '\\' :: 'u' :: (hs' ++ rest)) =
      .ok (n, '\\' :: 'u' :: (hs' ++ rest)) := readHex_eq_ok_iff.mpr ⟨hs, rfl, h⟩
  have hhex' : readHex (hs' ++ rest) = .ok (m, rest) := readHex_eq_ok_iff.mpr ⟨hs', rfl, h'⟩
  have hmark : ∀ mark s, readMark mark (mark :: s) = .ok s := fun _ _ =>
    readMark_eq_ok_iff.mpr rfl
  simp [readUnicode, hhex, hhex', hmark, isTrailing_of_isLeading hleading, hleading, htrailing,
    pure, Except.pure]

theorem readEscape_sound {s rest : List Char} {c : Char} (h : readEscape s = .ok (c, rest)) :
    ∃ t, s = t ++ rest ∧ Spelled ('\\' :: t) c := by
  unfold readEscape at h
  split at h
  case h_10 s =>
    obtain ⟨t, rfl, ht⟩ := readUnicode_sound h
    exact ⟨'u' :: t, rfl, ht⟩
  all_goals
    cases h
  all_goals
    exact ⟨[_], rfl, .short (by simp [shortEscapes])⟩

theorem readEscape_complete {t : List Char} {c : Char} (h : Spelled ('\\' :: t) c)
    (rest : List Char) : readEscape (t ++ rest) = .ok (c, rest) := by
  cases h with
  | plain _ _ hne => exact absurd rfl hne
  | short hmem =>
    simp only [shortEscapes, List.mem_cons, Prod.mk.injEq, List.not_mem_nil, or_false] at hmem
    rcases hmem with ⟨rfl, rfl⟩ | ⟨rfl, rfl⟩ | ⟨rfl, rfl⟩ | ⟨rfl, rfl⟩ | ⟨rfl, rfl⟩ | ⟨rfl, rfl⟩ |
      ⟨rfl, rfl⟩ | ⟨rfl, rfl⟩ <;> rfl
  | code hn hleading htrailing => exact readUnicode_code hn hleading htrailing rest
  | pair hn hm hleading htrailing => exact readUnicode_pair hn hm hleading htrailing rest

end Escaped

namespace Spelled

theorem cases_head {t : List Char} {c : Char} (h : Spelled t c) :
    (∃ u, t = '\\' :: u) ∨ t = [c] ∧ 0x20 ≤ c.toNat ∧ c ≠ '"' ∧ c ≠ '\\' := by
  cases h with
  | plain hlow hquote hslash => exact .inr ⟨rfl, hlow, hquote, hslash⟩
  | short _ => exact .inl ⟨_, rfl⟩
  | code _ _ _ => exact .inl ⟨_, rfl⟩
  | pair _ _ _ _ => exact .inl ⟨_, rfl⟩

theorem ne_nil {t : List Char} {c : Char} (h : Spelled t c) : t ≠ [] := by
  rcases h.cases_head with ⟨u, rfl⟩ | ⟨rfl, -⟩ <;> simp

end Spelled

namespace Escaped

theorem readChars_sound {n : Nat} {s rest cs : List Char} (h : readChars n s = .ok (cs, rest)) :
    ∃ ts, s = ts.flatten ++ '"' :: rest ∧ List.Forall₂ Spelled ts cs := by
  fun_induction readChars n s generalizing cs with
  | case1 => cases h
  | case2 => cases h
  | case3 n s =>
    cases h
    exact ⟨[], rfl, .nil⟩
  | case4 n s ih =>
    obtain ⟨⟨c, s₁⟩, hescape, hrest⟩ := bind_eq_ok.mp h
    obtain ⟨⟨cs', s₂⟩, hchars, hrest⟩ := bind_eq_ok.mp hrest
    cases hrest
    obtain ⟨t, rfl, ht⟩ := readEscape_sound hescape
    obtain ⟨ts, rfl, hts⟩ := ih s₁ hchars
    exact ⟨('\\' :: t) :: ts, by simp, .cons ht hts⟩
  | case5 => cases h
  | case6 n c s hquote hslash _ hlow =>
    rename_i ih
    obtain ⟨⟨cs', s₂⟩, hchars, hrest⟩ := bind_eq_ok.mp h
    cases hrest
    obtain ⟨ts, rfl, hts⟩ := ih hchars
    exact ⟨[c] :: ts, rfl, .cons (.plain (Nat.le_of_not_lt hlow) hquote hslash) hts⟩

theorem readChars_spelled {t : List Char} {c : Char} (h : Spelled t c) (n : Nat) (s : List Char) :
    readChars (n + 1) (t ++ s) = do
      let (cs, s) ← readChars n s
      return (c :: cs, s) := by
  rcases h.cases_head with ⟨u, rfl⟩ | ⟨rfl, hlow, hquote, hslash⟩
  · have hescape := readEscape_complete h s
    simp only [List.cons_append, readChars, hescape, ok_bind]
  · have hlow' : ¬ c.toNat < 0x20 := by omega
    rw [List.cons_append, List.nil_append]
    conv_lhs => unfold readChars
    split
    all_goals simp_all

theorem readChars_complete {ts : List (List Char)} {cs : List Char}
    (h : List.Forall₂ Spelled ts cs) (rest : List Char) {n : Nat} (hn : ts.flatten.length < n) :
    readChars n (ts.flatten ++ '"' :: rest) = .ok (cs, rest) := by
  induction h generalizing n with
  | nil =>
    obtain ⟨m, rfl⟩ := Nat.exists_eq_add_one_of_ne_zero (Nat.ne_zero_of_lt hn)
    rfl
  | @cons t c ts cs ht _ ih =>
    obtain ⟨m, rfl⟩ := Nat.exists_eq_add_one_of_ne_zero (Nat.ne_zero_of_lt hn)
    have hlength := List.length_pos_iff.mpr ht.ne_nil
    simp only [List.flatten_cons, List.length_append] at hn
    rw [List.flatten_cons, List.append_assoc, readChars_spelled ht, ih (by omega)]
    rfl

end Escaped

theorem Escaped.readRest_sound {bound : Nat} {s rest : List Char} {k : String}
    (h : Escaped.readRest bound s = .ok (k, rest)) : ∃ t, '"' :: s = t ++ rest ∧ Quoted t k := by
  obtain ⟨⟨cs, s'⟩, hchars, h⟩ := bind_eq_ok.mp h
  cases h
  obtain ⟨ts, rfl, hts⟩ := readChars_sound hchars
  exact ⟨'"' :: ts.flatten ++ ['"'], by simp, .mk hts⟩

/-- A quoted text starts with the mark that the reader of the rest leaves out. -/
theorem Quoted.readRest {t : List Char} {k : String} (h : Quoted t k) (rest : List Char)
    {bound : Nat} (hbound : (t ++ rest).length ≤ bound) :
    ∃ s, t ++ rest = '"' :: s ∧ Escaped.readRest bound s = .ok (k, rest) := by
  obtain ⟨hts⟩ := h
  rename_i ts cs
  have hchars := Escaped.readChars_complete hts rest (n := bound) (by
    simp only [List.length_append, List.length_cons] at hbound
    omega)
  refine ⟨ts.flatten ++ '"' :: rest, by simp, ?_⟩
  simp [Escaped.readRest, hchars, pure, Except.pure]

end Json
end PacedJobs
