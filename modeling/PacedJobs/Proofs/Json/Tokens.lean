import PacedJobs.Proofs.Json.Values

/-!
# Texts with the same tokens

A text is a row of tokens with white space between them: marks, strings, and words, which are the
names of values and the numbers. Two texts with the same tokens differ in their white space and in
the way in which strings are spelled, and they are texts of the same value.
-/

namespace PacedJobs
namespace Json

def isMark (c : Char) : Bool :=
  c == '[' || c == ']' || c == '\x7b' || c == '\x7d' || c == ':' || c == ','

/-- The characters of names and numbers, and all others that may not stand between tokens. -/
def isWordChar (c : Char) : Bool :=
  !Reader.isSpace c && !isMark c && c != '"'

inductive Token where
  | mark (c : Char)
  | string (s : String)
  | word (cs : List Char)

namespace Token

/-- The texts of a token. Only a string has several. -/
inductive Text : Token → List Char → Prop
  | mark {c : Char} : isMark c = true → Text (mark c) [c]
  | string {t : List Char} {s : String} : Quoted t s → Text (string s) t
  | word {cs : List Char} : cs ≠ [] → (∀ c ∈ cs, isWordChar c = true) → Text (word cs) cs

/-- A word goes on as long as it can. -/
def Ends : Token → List Char → Prop
  | word _, s => ∀ c ∈ s.head?, isWordChar c = false
  | _, _ => True

end Token

/-- The tokens of a text. -/
inductive Tokens : List Char → List Token → Prop
  | nil : Tokens [] []
  | space {c : Char} {s : List Char} {ts : List Token} : Reader.isSpace c = true → Tokens s ts →
      Tokens (c :: s) ts
  | token {t : Token} {u s : List Char} {ts : List Token} : t.Text u → t.Ends s → Tokens s ts →
      Tokens (u ++ s) (t :: ts)

/-- Two texts differ in white space between tokens and in the spelling of strings only. -/
def Restyles (t t' : List Char) : Prop :=
  ∃ ts, Tokens t ts ∧ Tokens t' ts

/-! ### Tokens are told apart -/

theorem isMark_eq_false_of_isSpace {c : Char} (h : Reader.isSpace c = true) :
    isMark c = false ∧ c ≠ '"' ∧ isWordChar c = false := by
  refine ⟨?_, ?_, by simp [isWordChar, h]⟩
  · simp only [Reader.isSpace, Bool.or_eq_true, beq_iff_eq] at h
    rcases h with ((rfl | rfl) | rfl) | rfl <;> decide
  · rintro rfl
    revert h
    decide

theorem isWordChar_eq_false_of_isMark {c : Char} (h : isMark c = true) :
    c ≠ '"' ∧ isWordChar c = false := by
  refine ⟨?_, by simp [isWordChar, h]⟩
  rintro rfl
  revert h
  decide

namespace Token

variable {t t' : Token} {u u' s s' : List Char}

/-- What a text of a token starts with tells of which sort it is. -/
theorem Text.head (h : t.Text u) : ∃ c v, u = c :: v ∧ Reader.isSpace c = false ∧
    ((isMark c = true ∧ t = Token.mark c ∧ v = []) ∨
      (c = '"' ∧ ∃ k, t = Token.string k ∧ Quoted u k) ∨
      (isWordChar c = true ∧ t = Token.word u)) := by
  cases h with
  | @mark c hc =>
    refine ⟨c, [], rfl, ?_, .inl ⟨hc, rfl, rfl⟩⟩
    by_contra hspace
    simp [isMark_eq_false_of_isSpace (by simpa using hspace)] at hc
  | @string _ k hquoted =>
    obtain ⟨hspelled⟩ := hquoted
    exact ⟨'"', _, rfl, by decide, .inr (.inl ⟨rfl, _, rfl, .mk hspelled⟩)⟩
  | word hne hcs =>
    obtain ⟨c, v, rfl⟩ := List.exists_cons_of_ne_nil hne
    have hc := hcs c List.mem_cons_self
    refine ⟨c, v, rfl, ?_, .inr (.inr ⟨hc, rfl⟩)⟩
    simp only [isWordChar, Bool.and_eq_true, Bool.not_eq_true'] at hc
    exact hc.1.1

end Token

/-- A string ends with its closing mark, so no other text of a string begins the same text. -/
theorem Quoted.append_inj {q q' s s' : List Char} {k k' : String} (h : Quoted q k)
    (h' : Quoted q' k') (heq : q ++ s = q' ++ s') : q = q' ∧ k = k' ∧ s = s' := by
  have hbound : (q' ++ s').length ≤ (q ++ s).length := heq ▸ le_rfl
  obtain ⟨r, hr, hread⟩ := h.readRest s le_rfl
  obtain ⟨r', hr', hread'⟩ := h'.readRest s' hbound
  obtain rfl : r = r' := by
    rw [← heq, hr] at hr'
    exact (List.cons_inj_right _).mp hr'
  rw [hread] at hread'
  cases hread'
  exact ⟨List.append_cancel_right heq, rfl, rfl⟩

/-- Words that begin the same text and go on as long as they can are the same. -/
theorem word_append_inj {p : Char → Bool} {u u' s s' : List Char} (hu : ∀ c ∈ u, p c = true)
    (hu' : ∀ c ∈ u', p c = true) (hs : ∀ c ∈ s.head?, p c = false)
    (hs' : ∀ c ∈ s'.head?, p c = false) (heq : u ++ s = u' ++ s') : u = u' ∧ s = s' := by
  have htake : ∀ {u s : List Char}, (∀ c ∈ u, p c = true) → (∀ c ∈ s.head?, p c = false) →
      (u ++ s).takeWhile p = u := by
    intro u s hu hs
    rw [List.takeWhile_append_of_pos hu]
    cases s with
    | nil => simp
    | cons c s => simp [hs c rfl]
  have huu : u = u' := by rw [← htake hu hs, heq, htake hu' hs']
  subst huu
  exact ⟨rfl, List.append_cancel_left heq⟩

namespace Token

variable {t t' : Token} {u u' s s' : List Char}

theorem append_inj (h : t.Text u) (hends : t.Ends s) (h' : t'.Text u') (hends' : t'.Ends s')
    (heq : u ++ s = u' ++ s') : t = t' ∧ s = s' := by
  obtain ⟨c, v, rfl, hspace, hsort⟩ := h.head
  obtain ⟨c', v', rfl, hspace', hsort'⟩ := h'.head
  obtain rfl : c = c' := by simpa using congrArg List.head? heq
  rcases hsort with ⟨hmark, rfl, rfl⟩ | ⟨rfl, k, rfl, hquoted⟩ | ⟨hword, rfl⟩
  · obtain ⟨hquote, hword⟩ := isWordChar_eq_false_of_isMark hmark
    rcases hsort' with ⟨-, rfl, rfl⟩ | ⟨rfl, -⟩ | ⟨hword', -⟩
    · exact ⟨rfl, by simpa using heq⟩
    · exact absurd rfl hquote
    · simp [hword] at hword'
  · rcases hsort' with ⟨hmark, -⟩ | ⟨-, k', rfl, hquoted'⟩ | ⟨hword, -⟩
    · exact absurd hmark (by decide)
    · obtain ⟨-, rfl, hs⟩ := hquoted.append_inj hquoted' heq
      exact ⟨rfl, hs⟩
    · exact absurd hword (by decide)
  · rcases hsort' with ⟨hmark, -⟩ | ⟨rfl, -⟩ | ⟨-, rfl⟩
    · simp [isWordChar_eq_false_of_isMark hmark] at hword
    · exact absurd hword (by decide)
    · cases h with
      | word _ hcs =>
        cases h' with
        | word _ hcs' =>
          obtain ⟨hu, hs⟩ := word_append_inj hcs hcs' hends hends' heq
          exact ⟨congrArg word hu, hs⟩

end Token

namespace Tokens

variable {t : Token} {w u s : List Char} {ts : List Token}

theorem of_white (hw : White w) (h : Tokens (w ++ s) ts) : Tokens s ts := by
  induction w with
  | nil => exact h
  | cons c w ih =>
    obtain ⟨hc, hw⟩ := List.forall_mem_cons.mp hw
    refine ih hw ?_
    rw [List.cons_append] at h
    generalize hs : c :: (w ++ s) = s' at h
    cases h with
    | nil => cases hs
    | space _ hrest =>
      cases hs
      exact hrest
    | token ht _ _ =>
      obtain ⟨d, v, rfl, hspace, -⟩ := ht.head
      obtain rfl : c = d := by simpa using congrArg List.head? hs
      simp [hc] at hspace

theorem of_token (ht : t.Text u) (hends : t.Ends s) (h : Tokens (u ++ s) ts) :
    ∃ ts', ts = t :: ts' ∧ Tokens s ts' := by
  generalize hs : u ++ s = s' at h
  cases h with
  | nil =>
    obtain ⟨c, v, rfl, -⟩ := ht.head
    cases hs
  | space hc _ =>
    obtain ⟨c, v, rfl, hspace, -⟩ := ht.head
    cases hs
    simp [hspace] at hc
  | token ht' hends' hrest =>
    obtain ⟨rfl, rfl⟩ := Token.append_inj ht hends ht' hends' hs
    exact ⟨_, rfl, hrest⟩

theorem eq_nil (h : Tokens [] ts) : ts = [] := by
  generalize hs : [] = s at h
  cases h with
  | nil => rfl
  | space _ _ => cases hs
  | token ht _ _ =>
    obtain ⟨c, v, rfl, -⟩ := ht.head
    cases hs

/-- A text has one row of tokens at most. -/
theorem unique {ts' : List Token} (h : Tokens s ts) (h' : Tokens s ts') : ts = ts' := by
  induction h generalizing ts' with
  | nil => exact h'.eq_nil.symm
  | @space c s ts hc _ ih => exact ih (h'.of_white (w := [c]) (by simpa [White] using hc))
  | token ht hends _ ih =>
    obtain ⟨us, rfl, hrest⟩ := h'.of_token ht hends
    rw [ih hrest]

theorem white_append (hw : White w) (h : Tokens s ts) : Tokens (w ++ s) ts := by
  induction w with
  | nil => exact h
  | cons c w ih =>
    obtain ⟨hc, hw⟩ := List.forall_mem_cons.mp hw
    exact .space hc (ih hw)

theorem mark {c : Char} (hc : isMark c = true) (h : Tokens s ts) :
    Tokens (c :: s) (.mark c :: ts) :=
  .token (.mark hc) trivial h

theorem white_of_nil (h : Tokens s []) : White s := by
  generalize hts : [] = ts at h
  induction h with
  | nil => exact white_nil
  | space hc _ ih => exact List.forall_mem_cons.mpr ⟨hc, ih hts⟩
  | token _ _ _ _ => cases hts

theorem exists_of_cons (h : Tokens s (t :: ts)) :
    ∃ w u s', White w ∧ t.Text u ∧ s = w ++ u ++ s' ∧ Tokens s' ts := by
  generalize hts : t :: ts = ts' at h
  induction h with
  | nil => cases hts
  | @space c s ts' hc _ ih =>
    obtain ⟨w, u, s', hw, hu, rfl, hrest⟩ := ih hts
    exact ⟨c :: w, u, s', List.forall_mem_cons.mpr ⟨hc, hw⟩, hu, by simp, hrest⟩
  | @token t' u s' ts' hu _ hrest _ =>
    cases hts
    exact ⟨[], u, s', white_nil, hu, by simp, hrest⟩

theorem exists_of_mark {c : Char} (h : Tokens s (.mark c :: ts)) :
    ∃ w s', White w ∧ s = w ++ c :: s' ∧ Tokens s' ts := by
  obtain ⟨w, u, s', hw, hu, rfl, hrest⟩ := h.exists_of_cons
  cases hu
  exact ⟨w, s', hw, by simp, hrest⟩

end Tokens

/-! ### Values -/

/-- A text of a value has the tokens, and so have other texts of the value and no texts besides. -/
structure Styled {α : Type} (R : List Char → α → Prop) (t : List Char) (x : α) (ts : List Token) :
    Prop where
  tokens : ∀ {s : List Char} {us : List Token}, Reader.Stop s → Tokens s us →
    Tokens (t ++ s) (ts ++ us)
  texts : ∀ {y : List Char} {us : List Token}, Tokens y (ts ++ us) →
    ∃ w u s, White w ∧ R u x ∧ y = w ++ u ++ s ∧ Tokens s us

/-- What holds of a text is seen in its tokens. -/
def Tokenized {α : Type} (R : List Char → α → Prop) : Prop :=
  ∀ t x, R t x → ∃ ts, Styled R t x ts

section

variable {α : Type} {R : List Char → α → Prop} {s t y : List Char} {x : α} {us : List Token}

theorem isWordChar_of_stop (h : Reader.Stop s) : ∀ c ∈ s.head?, isWordChar c = false := by
  intro c hc
  rcases h c hc with hspace | rfl | rfl | rfl
  · exact (isMark_eq_false_of_isSpace hspace).2.2
  · decide
  · decide
  · decide

theorem Styled.word (ht : R t x) (hne : t ≠ []) (hword : ∀ c ∈ t, isWordChar c = true) :
    Styled R t x [.word t] where
  tokens hs h := .token (.word hne hword) (isWordChar_of_stop hs) h
  texts h := by
    obtain ⟨w, u, s, hw, hu, rfl, hrest⟩ := h.exists_of_cons
    cases hu
    exact ⟨w, t, s, hw, ht, rfl, hrest⟩

theorem styled_quoted {q : List Char} {k : String} (h : Quoted q k) :
    Styled Quoted q k [.string k] where
  tokens _ h' := .token (.string h) trivial h'
  texts h' := by
    obtain ⟨w, u, s, hw, hu, rfl, hrest⟩ := h'.exists_of_cons
    cases hu with
    | string hu => exact ⟨w, u, s, hw, hu, rfl, hrest⟩

theorem isWordChar_of_isDigit {c : Char} (h : Digits.isDigit c = true) : isWordChar c = true := by
  have hne : ∀ d, Digits.isDigit d = false → c ≠ d := by
    rintro d hd rfl
    simp [h] at hd
  simp [isWordChar, Reader.isSpace, isMark, hne ' ' rfl, hne '\n' rfl, hne '\t' rfl, hne '\r' rfl,
    hne '[' rfl, hne ']' rfl, hne '\x7b' rfl, hne '\x7d' rfl, hne ':' rfl, hne ',' rfl, hne '"' rfl]

namespace Literal

theorem Run.isWordChar {ds : List Char} (h : Run ds) : ∀ c ∈ ds, isWordChar c = true :=
  fun c hc => isWordChar_of_isDigit (h.2 c hc)

theorem FractionText.isWordChar {ds u : List Char} (h : FractionText ds u) :
    ∀ c ∈ u, Json.isWordChar c = true := by
  cases h with
  | absent => exact List.forall_mem_nil _
  | present hrun => exact List.forall_mem_cons.mpr ⟨by decide, hrun.isWordChar⟩

theorem ExponentText.isWordChar {e : Option (Bool × List Char)} {u : List Char}
    (h : ExponentText e u) : ∀ c ∈ u, Json.isWordChar c = true := by
  cases h with
  | absent => exact List.forall_mem_nil _
  | @present c _ _ _ he hsign hrun =>
    have hletter : Json.isWordChar c = true := by rcases he with rfl | rfl <;> decide
    rw [List.forall_mem_append]
    refine ⟨List.forall_mem_cons.mpr ⟨hletter, ?_⟩, hrun.isWordChar⟩
    cases hsign <;> exact List.all_eq_true.mp rfl

theorem Written.isWordChar {l : Literal} {u : List Char} (h : l.Written u) :
    ∀ c ∈ u, Json.isWordChar c = true := by
  obtain ⟨hwhole, hfraction, hexponent⟩ := h
  have hsign : ∀ c ∈ if l.negative then ['-'] else [], Json.isWordChar c = true := by
    cases l.negative <;> exact List.all_eq_true.mp rfl
  simp only [List.forall_mem_append]
  exact ⟨⟨⟨hsign, hwhole.1.isWordChar⟩, hfraction.isWordChar⟩, hexponent.isWordChar⟩

end Literal

theorem Tokenized.paired (h : Tokenized R) : Tokenized (Paired R) := by
  rintro _ ⟨k, x⟩ @⟨key, w, w', t, _, _, hkey, hw, hw', ht⟩
  obtain ⟨ts, hts⟩ := h t x ht
  have hquoted := styled_quoted hkey
  refine ⟨.string k :: .mark ':' :: ts, ⟨fun {s us} hs hus => ?_, fun {y us} hy => ?_⟩⟩
  · have hsplit : key ++ w ++ ':' :: w' ++ t ++ s = key ++ (w ++ ':' :: (w' ++ (t ++ s))) := by simp
    have hvalue := (hts.tokens hs hus).white_append hw'
    rw [hsplit]
    exact .token (.string hkey) trivial ((hvalue.mark (by decide)).white_append hw)
  · rw [List.cons_append] at hy
    obtain ⟨v, key', y₁, hv, hkey', rfl, hy₁⟩ := hquoted.texts hy
    obtain ⟨v₁, y₂, hv₁, rfl, hy₂⟩ := hy₁.exists_of_mark
    obtain ⟨v₂, u, s, hv₂, hu, rfl, hrest⟩ := hts.texts hy₂
    exact ⟨v, _, s, hv, .mk hkey' hv₁ hv₂ hu, by simp, hrest⟩

theorem Tokenized.forall₂ (h : Tokenized R) {close : Char} (hclose : close = ']' ∨ close = '\x7d')
    {ts : List (List Char)} {xs : List α} (hts : List.Forall₂ (Padded R) ts xs) :
    ∃ more, (∀ {w s us}, White w → Tokens s us →
        Tokens (w ++ ts.flatMap (',' :: ·) ++ close :: s) (more ++ .mark close :: us)) ∧
      ∀ {y us}, Tokens y (more ++ .mark close :: us) → ∃ w ts' s, White w ∧
        List.Forall₂ (Padded R) ts' xs ∧ y = w ++ ts'.flatMap (',' :: ·) ++ close :: s ∧
        Tokens s us := by
  have hmark : isMark close = true := by rcases hclose with rfl | rfl <;> decide
  induction hts with
  | nil =>
    refine ⟨[], fun hw hus => ?_, fun hy => ?_⟩
    · simpa using (hus.mark hmark).white_append hw
    · obtain ⟨w, s, hw, rfl, hrest⟩ := hy.exists_of_mark
      exact ⟨w, [], s, hw, .nil, by simp, hrest⟩
  | @cons _ x ts xs ht _ ih =>
    obtain @⟨w₁, t, w₂, _, hw₁, ht, hw₂⟩ := ht
    obtain ⟨more, htokens, htexts⟩ := ih
    obtain ⟨ofValue, hvalue⟩ := h t x ht
    refine ⟨.mark ',' :: (ofValue ++ more), fun {w s us} hw hus => ?_, fun {y us} hy => ?_⟩
    · have hsplit : w ++ ((w₁ ++ t ++ w₂) :: ts).flatMap (',' :: ·) ++ close :: s =
          w ++ ',' :: (w₁ ++ (t ++ (w₂ ++ ts.flatMap (',' :: ·) ++ close :: s))) := by simp
      have hstop := Reader.stop_series hw₂ ts hclose s
      have hentry := (hvalue.tokens hstop (htokens hw₂ hus)).white_append hw₁
      rw [hsplit]
      simpa using (hentry.mark (by decide)).white_append hw
    · rw [List.cons_append, List.append_assoc] at hy
      obtain ⟨v, y₁, hv, rfl, hy₁⟩ := hy.exists_of_mark
      obtain ⟨v₁, u, y₂, hv₁, hu, rfl, hy₂⟩ := hvalue.texts hy₁
      obtain ⟨v₂, ts', s, hv₂, hts', rfl, hrest⟩ := htexts hy₂
      exact ⟨v, (v₁ ++ u ++ v₂) :: ts', s, hv, .cons (.mk hv₁ hu hv₂) hts', by simp, hrest⟩

/-- The tokens of what stands between brackets, with the closing one. -/
theorem Tokenized.series (h : Tokenized R) {close : Char}
    (hclose : close = ']' ∨ close = '\x7d') {xs : List α} (ht : Series R t xs) :
    ∃ ts, (∀ {s us}, Tokens s us → Tokens (t ++ close :: s) (ts ++ .mark close :: us)) ∧
      ∀ {y us}, Tokens y (ts ++ .mark close :: us) → ∃ u s, Series R u xs ∧ y = u ++ close :: s ∧
        Tokens s us := by
  cases ht with
  | none hw =>
    have hmark : isMark close = true := by rcases hclose with rfl | rfl <;> decide
    refine ⟨[], fun hus => (hus.mark hmark).white_append hw, fun hy => ?_⟩
    obtain ⟨v, s, hv, rfl, hrest⟩ := hy.exists_of_mark
    exact ⟨v, s, .none hv, rfl, hrest⟩
  | @some _ ts x xs ht hts =>
    obtain @⟨w₁, t, w₂, _, hw₁, ht, hw₂⟩ := ht
    obtain ⟨ofValue, hvalue⟩ := h t x ht
    obtain ⟨more, htokens, htexts⟩ := h.forall₂ hclose hts
    refine ⟨ofValue ++ more, fun {s us} hus => ?_, fun {y us} hy => ?_⟩
    · have hsplit : w₁ ++ t ++ w₂ ++ ts.flatMap (',' :: ·) ++ close :: s =
          w₁ ++ (t ++ (w₂ ++ ts.flatMap (',' :: ·) ++ close :: s)) := by simp
      have hstop := Reader.stop_series hw₂ ts hclose s
      rw [hsplit, List.append_assoc ofValue]
      exact (hvalue.tokens hstop (htokens hw₂ hus)).white_append hw₁
    · rw [List.append_assoc] at hy
      obtain ⟨v₁, u, y₂, hv₁, hu, rfl, hy₂⟩ := hvalue.texts hy
      obtain ⟨v₂, ts', s, hv₂, hts', rfl, hrest⟩ := htexts hy₂
      exact ⟨_, s, .some (.mk hv₁ hu hv₂) hts', by simp, hrest⟩

end

theorem tokenized_scalar : Tokenized (Shallow 0) := by
  rintro t v ⟨ht, hdepth⟩
  cases ht with
  | null => exact ⟨_, .word ⟨.null, hdepth⟩ (by decide) (List.all_eq_true.mp rfl)⟩
  | bool b =>
    have hword : ∀ c ∈ (if b then "true" else "false").toList, isWordChar c = true := by
      cases b <;> exact List.all_eq_true.mp rfl
    exact ⟨_, .word ⟨.bool b, hdepth⟩ (by cases b <;> decide) hword⟩
  | number hl hv =>
    obtain ⟨c, u, rfl, -⟩ := hl.head
    exact ⟨_, .word ⟨.number hl hv, hdepth⟩ (List.cons_ne_nil c u) hl.isWordChar⟩
  | string hq =>
    refine ⟨_, (styled_quoted hq).tokens, fun hy => ?_⟩
    obtain ⟨w, u, s, hw, hu, hs, hrest⟩ := (styled_quoted hq).texts hy
    exact ⟨w, u, s, hw, ⟨.string hu, hdepth⟩, hs, hrest⟩
  | array _ => exact absurd hdepth (by simp [depth])
  | object _ => exact absurd hdepth (by simp [depth])

theorem tokenized_shallow (d : Nat) : Tokenized (Shallow d) := by
  induction d with
  | zero => exact tokenized_scalar
  | succ d ih =>
    rintro t v ⟨ht, hdepth⟩
    by_cases hv : v.depth = 0
    · obtain ⟨ts, hts⟩ := tokenized_scalar t v ⟨ht, hv.le⟩
      refine ⟨ts, hts.tokens, fun hy => ?_⟩
      obtain ⟨w, u, s, hw, ⟨hu, -⟩, hs, hrest⟩ := hts.texts hy
      exact ⟨w, u, s, hw, ⟨hu, hdepth⟩, hs, hrest⟩
    cases ht with
    | null | bool _ | string _ => exact absurd rfl hv
    | number _ hl => cases hl <;> exact absurd rfl hv
    | @array t vs hseries =>
      obtain ⟨ts, htokens, htexts⟩ := ih.series (.inl rfl)
        (series_shallow_iff.mpr ⟨hseries, Nat.le_of_succ_le_succ hdepth⟩)
      refine ⟨.mark '[' :: (ts ++ [.mark ']']), fun {s us} _ hus => ?_, fun {y us} hy => ?_⟩
      · simpa using (htokens hus).mark (c := '[') (by decide)
      · rw [List.cons_append, List.append_assoc] at hy
        obtain ⟨w, y₁, hw, rfl, hy₁⟩ := hy.exists_of_mark
        obtain ⟨u, s, hu, rfl, hrest⟩ := htexts hy₁
        have harray : Denotes ('[' :: u ++ [']']) (array vs) := .array (series_shallow_iff.mp hu).1
        exact ⟨w, _, s, hw, ⟨harray, hdepth⟩, by simp, hrest⟩
    | @object t ms hseries =>
      obtain ⟨ts, htokens, htexts⟩ := ih.paired.series (.inr rfl)
        (series_paired_shallow_iff.mpr ⟨hseries, Nat.le_of_succ_le_succ hdepth⟩)
      refine ⟨.mark '\x7b' :: (ts ++ [.mark '\x7d']), fun {s us} _ hus => ?_,
        fun {y us} hy => ?_⟩
      · simpa using (htokens hus).mark (c := '\x7b') (by decide)
      · rw [List.cons_append, List.append_assoc] at hy
        obtain ⟨w, y₁, hw, rfl, hy₁⟩ := hy.exists_of_mark
        obtain ⟨u, s, hu, rfl, hrest⟩ := htexts hy₁
        have hobject : Denotes ('\x7b' :: u ++ ['\x7d']) (object ms) :=
          .object (series_paired_shallow_iff.mp hu).1
        exact ⟨w, _, s, hw, ⟨hobject, hdepth⟩, by simp, hrest⟩

/-- Every text of a value has tokens, and whatever has the same tokens is a text of the value. -/
theorem IsText.exists_tokens {t : List Char} {v : Json} (h : IsText t v) :
    ∃ ts, Tokens t ts ∧ ∀ t', Tokens t' ts → IsText t' v := by
  obtain @⟨w, t, w', _, hw, ht, hw'⟩ := h
  obtain ⟨ts, hts⟩ := tokenized_shallow v.depth t v ⟨ht, le_rfl⟩
  refine ⟨ts, ?_, fun t' ht' => ?_⟩
  · have hend : Tokens w' [] := by simpa using Tokens.nil.white_append hw'
    have htokens := (hts.tokens (Reader.stop_of_white hw') hend).white_append hw
    simpa using htokens
  · rw [← List.append_nil ts] at ht'
    obtain ⟨w, u, s, hw, ⟨hu, -⟩, rfl, hrest⟩ := hts.texts ht'
    exact .mk hw hu hrest.white_of_nil

theorem IsText.restyled {t t' : List Char} {v : Json} (h : IsText t v) (hstyle : Restyles t t') :
    IsText t' v := by
  obtain ⟨ts, htokens, htexts⟩ := h.exists_tokens
  obtain ⟨ts', ht, ht'⟩ := hstyle
  exact htexts t' (htokens.unique ht ▸ ht')

end Json
end PacedJobs
