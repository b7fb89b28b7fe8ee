import PacedJobs.Proofs.Json.Loops
import PacedJobs.Proofs.Json.Numbers

/-!
# Reading values

The reader of values takes exactly the texts of the grammar whose brackets are not too deep, and
gives the value that the text denotes. So a text is the text of one value at most.
-/

namespace PacedJobs
namespace Json

section

variable {α : Type} {R S : List Char → α → Prop} {t : List Char}

theorem Padded.imp {x : α} (h : Padded R t x) (himp : ∀ u, R u x → S u x) : Padded S t x := by
  obtain ⟨hw, hu, hw'⟩ := h
  exact .mk hw (himp _ hu) hw'

/-- A relation on the entries of a series may be changed entry by entry. -/
theorem Series.imp {xs : List α} (h : Series R t xs) (himp : ∀ x ∈ xs, ∀ u, R u x → S u x) :
    Series S t xs := by
  cases h with
  | none hw => exact .none hw
  | @some t ts x xs ht hts =>
    have hrest : List.Forall₂ (Padded S) ts xs := by
      clear ht
      induction hts with
      | nil => exact .nil
      | @cons t y ts ys ht _ ih =>
        refine .cons (ht.imp (himp y (by simp))) (ih fun z hz => himp z ?_)
        rcases List.mem_cons.mp hz with rfl | hz <;> simp [*]
    exact .some (ht.imp (himp x List.mem_cons_self)) hrest

theorem Series.forall_mem {P : α → Prop} {xs : List α} (h : Series R t xs)
    (hR : ∀ {u x}, R u x → P x) : ∀ x ∈ xs, P x := by
  cases h with
  | none _ => simp
  | @some t ts x xs ht hts =>
    have hpadded : ∀ {u x}, Padded R u x → P x := fun h => by
      obtain ⟨-, hu, -⟩ := h
      exact hR hu
    have hrest : ∀ y ∈ xs, P y := by
      clear ht
      induction hts with
      | nil => simp
      | cons ht _ ih => exact List.forall_mem_cons.mpr ⟨hpadded ht, ih⟩
    exact List.forall_mem_cons.mpr ⟨hpadded ht, hrest⟩

end

/-- The texts of values whose brackets are at most so deep. -/
def Shallow (d : Nat) (t : List Char) (v : Json) : Prop :=
  Denotes t v ∧ v.depth ≤ d

theorem series_shallow_iff {d : Nat} {t : List Char} {vs : List Json} :
    Series (Shallow d) t vs ↔ Series Denotes t vs ∧ itemsDepth vs ≤ d := by
  rw [itemsDepth_le_iff]
  constructor
  · intro h
    exact ⟨h.imp fun _ _ _ hu => hu.1, h.forall_mem And.right⟩
  · rintro ⟨h, hdepth⟩
    exact h.imp fun v hv _ hu => ⟨hu, hdepth v hv⟩

theorem series_paired_shallow_iff {d : Nat} {t : List Char} {ms : List (String × Json)} :
    Series (Paired (Shallow d)) t ms ↔ Series (Paired Denotes) t ms ∧ membersDepth ms ≤ d := by
  rw [membersDepth_le_iff]
  constructor
  · intro h
    refine ⟨h.imp fun m _ u hu => ?_, h.forall_mem fun hu => ?_⟩
    · obtain ⟨hkey, hw, hw', ht⟩ := hu
      exact .mk hkey hw hw' ht.1
    · obtain ⟨-, -, -, ht⟩ := hu
      exact ht.2
  · rintro ⟨h, hdepth⟩
    refine h.imp fun m hm u hu => ?_
    obtain ⟨hkey, hw, hw', ht⟩ := hu
    exact .mk hkey hw hw' ⟨ht, hdepth _ hm⟩

namespace Reader

variable {bound : Nat}

/-! ### Scalars -/

theorem readWord_eq_ok_iff {word s rest : List Char} :
    readWord word s = .ok rest ↔ s = word ++ rest := by
  induction word generalizing s with
  | nil => simp [readWord]
  | cons c word ih =>
    cases s with
    | nil => simp [readWord]
    | cons d s =>
      by_cases hd : d = c
      · simp [readWord, hd, ih]
      · simp [readWord, hd]

/-- No bracket is opened by the first character. -/
def Scalar (s : List Char) : Prop :=
  ∀ c ∈ s.head?, c ≠ '[' ∧ c ≠ '\x7b'

theorem scalar_of_ne {s : List Char} (hbracket : ∀ u, s ≠ '[' :: u)
    (hbrace : ∀ u, s ≠ '\x7b' :: u) : Scalar s := by
  intro c hc
  obtain ⟨u, rfl⟩ := List.head?_eq_some_iff.mp hc
  exact ⟨fun heq => hbracket u (by rw [heq]), fun heq => hbrace u (by rw [heq])⟩

theorem readScalar_sound {s rest : List Char} {v : Json}
    (h : readScalar bound s = .ok (v, rest)) : ∃ t, Shallow 0 t v ∧ s = t ++ rest := by
  unfold readScalar at h
  split at h
  · cases h
  · obtain ⟨_, hword, hv⟩ := bind_eq_ok.mp h
    cases hv
    exact ⟨_, ⟨.null, Nat.le_refl 0⟩, by rw [readWord_eq_ok_iff.mp hword]; rfl⟩
  · obtain ⟨_, hword, hv⟩ := bind_eq_ok.mp h
    cases hv
    exact ⟨_, ⟨.bool true, Nat.le_refl 0⟩, by rw [readWord_eq_ok_iff.mp hword]; rfl⟩
  · obtain ⟨_, hword, hv⟩ := bind_eq_ok.mp h
    cases hv
    exact ⟨_, ⟨.bool false, Nat.le_refl 0⟩, by rw [readWord_eq_ok_iff.mp hword]; rfl⟩
  · obtain ⟨⟨k, s'⟩, hrest, hv⟩ := bind_eq_ok.mp h
    cases hv
    obtain ⟨t, hs, ht⟩ := Escaped.readRest_sound hrest
    exact ⟨t, ⟨.string ht, Nat.le_refl 0⟩, hs⟩
  next c s _ _ _ _ =>
    split_ifs at h
    obtain ⟨t, l, hs, ht, hv⟩ := readNumber_sound h
    refine ⟨t, ⟨.number ht hv, ?_⟩, hs⟩
    cases hv <;> exact Nat.le_refl 0

theorem Stop.break {s : List Char} (h : Stop s) : Literal.Break s := by
  intro c hc
  rcases h c hc with hspace | rfl | rfl | rfl
  · simp only [isSpace, Bool.or_eq_true, beq_iff_eq] at hspace
    rcases hspace with ((rfl | rfl) | rfl) | rfl <;> decide
  · decide
  · decide
  · decide

theorem readScalar_number {c : Char} (h : c = '-' ∨ Digits.isDigit c = true) (s : List Char) :
    readScalar bound (c :: s) = readNumber (c :: s) := by
  have hne : c ≠ 'n' ∧ c ≠ 't' ∧ c ≠ 'f' ∧ c ≠ '"' := by
    refine ⟨?_, ?_, ?_, ?_⟩ <;> rintro rfl <;> revert h <;> decide
  obtain ⟨hn, ht, hf, hquote⟩ := hne
  simp [readScalar, h]

theorem readScalar_complete {t rest : List Char} {v : Json} (h : Denotes t v) (hv : v.depth = 0)
    (hrest : Stop rest) (hbound : (t ++ rest).length ≤ bound) :
    readScalar bound (t ++ rest) = .ok (v, rest) := by
  have hword : ∀ word, readWord word (word ++ rest) = .ok rest := fun _ =>
    readWord_eq_ok_iff.mpr rfl
  cases h with
  | null => exact congrArg (· >>= fun s => pure (Json.null, s)) (hword "ull".toList)
  | bool b =>
    cases b with
    | true => exact congrArg (· >>= fun s => pure (Json.bool true, s)) (hword "rue".toList)
    | false => exact congrArg (· >>= fun s => pure (Json.bool false, s)) (hword "alse".toList)
  | number ht hl =>
    obtain ⟨c, u, rfl, hc⟩ := ht.head
    rw [← ht.readNumber_eq hl hrest.break, List.cons_append, readScalar_number hc]
  | string ht =>
    obtain ⟨s, hs, hread⟩ := ht.readRest rest hbound
    rw [hs]
    simp [readScalar, hread, pure, Except.pure]
  | array _ => cases hv
  | object _ => cases hv

/-! ### Members and values -/

theorem readColon_eq_ok_iff {s rest : List Char} :
    readColon s = .ok rest ↔ ∃ w, White w ∧ s = w ++ ':' :: rest := by
  unfold readColon
  constructor
  · intro h
    obtain ⟨w, hw, hs⟩ := white_append_skipSpace s
    split at h
    · cases h
    next hskip =>
      cases h
      exact ⟨w, hw, by rwa [hskip] at hs⟩
    · cases h
  · rintro ⟨w, hw, rfl⟩
    simp [skipSpace_append hw, skipSpace_cons (c := ':') rfl]

theorem readKey_sound {s rest : List Char} {k : String} (h : readKey bound s = .ok (k, rest)) :
    ∃ key, Quoted key k ∧ s = key ++ rest := by
  unfold readKey at h
  split at h
  · obtain ⟨key, hs, hkey⟩ := Escaped.readRest_sound h
    exact ⟨key, hkey, hs⟩
  · cases h

theorem readKey_complete {key rest : List Char} {k : String} (h : Quoted key k)
    (hbound : (key ++ rest).length ≤ bound) : readKey bound (key ++ rest) = .ok (k, rest) := by
  obtain ⟨s, hs, hread⟩ := h.readRest rest hbound
  rw [hs]
  exact hread

theorem Reads.entry {α : Type} {item : List Char → Except Fault (α × List Char)}
    {R : List Char → α → Prop} (h : Reads bound item R)
    (hskip : ∀ w s, White w → item (w ++ s) = item s) :
    Reads bound (entry bound item) (Paired R) where
  sound := by
    intro s rest m hread
    obtain ⟨⟨k, s₁⟩, hkey, hmember⟩ := bind_eq_ok.mp hread
    obtain ⟨s₂, hcolon, hmember⟩ := bind_eq_ok.mp hmember
    obtain ⟨⟨x, s₃⟩, hitem, hm⟩ := bind_eq_ok.mp hmember
    cases hm
    obtain ⟨key, hquoted, rfl⟩ := readKey_sound hkey
    obtain ⟨w, hw, rfl⟩ := readColon_eq_ok_iff.mp hcolon
    obtain ⟨w', t, hw', ht, rfl⟩ := h.sound hitem
    exact ⟨[], _, white_nil, .mk hquoted hw hw' ht, by simp⟩
  complete := by
    intro t rest m ht hstop hbound
    obtain ⟨hquoted, hw, hw', ht⟩ := ht
    rename_i key w w' t k x
    have hsplit : key ++ w ++ ':' :: w' ++ t ++ rest =
        key ++ (w ++ ':' :: (w' ++ (t ++ rest))) := by
      simp
    rw [hsplit] at hbound ⊢
    have hcolon : readColon (w ++ ':' :: (w' ++ (t ++ rest))) = .ok (w' ++ (t ++ rest)) :=
      readColon_eq_ok_iff.mpr ⟨w, hw, rfl⟩
    have hitem : item (w' ++ (t ++ rest)) = .ok (x, rest) := by
      rw [hskip w' _ hw']
      refine h.complete ht hstop ?_
      simp only [List.length_append, List.length_cons] at hbound ⊢
      omega
    simp [Reader.entry, readKey_complete hquoted hbound, readMember, hcolon, hitem, pure,
      Except.pure]
  starts := by
    intro t m ht
    obtain ⟨⟨_⟩, -, -, -⟩ := ht
    exact ⟨'"', _, rfl, by decide, by decide, by decide, by decide⟩

end Reader

theorem Literal.Written.starts {l : Literal} {t : List Char} (h : l.Written t) :
    Reader.Starts t := by
  obtain ⟨c, u, rfl, hc⟩ := h.head
  refine ⟨c, u, rfl, ?_, ?_, ?_, ?_⟩
  · rw [Reader.isSpace, Bool.eq_false_iff]
    intro hspace
    simp only [Bool.or_eq_true, beq_iff_eq] at hspace
    rcases hspace with ((rfl | rfl) | rfl) | rfl <;> revert hc <;> decide
  all_goals
    rintro rfl
    revert hc
    decide

theorem Denotes.starts {t : List Char} {v : Json} (h : Denotes t v) : Reader.Starts t := by
  cases h with
  | null => exact ⟨'n', _, rfl, by decide, by decide, by decide, by decide⟩
  | bool b => cases b <;> exact ⟨_, _, rfl, by decide, by decide, by decide, by decide⟩
  | number ht _ => exact ht.starts
  | string ht =>
    obtain ⟨_⟩ := ht
    exact ⟨'"', _, rfl, by decide, by decide, by decide, by decide⟩
  | array _ => exact ⟨'[', _, rfl, by decide, by decide, by decide, by decide⟩
  | object _ => exact ⟨'\x7b', _, rfl, by decide, by decide, by decide, by decide⟩

namespace Reader

variable {bound : Nat}

theorem value_append {w : List Char} (hw : White w) (d : Nat) (s : List Char) :
    value bound d (w ++ s) = value bound d s := by
  cases d <;> simp only [value, skipSpace_append hw]

theorem value_eq_readScalar {s : List Char} (h : Scalar s) (hskip : skipSpace s = s) (d : Nat) :
    value bound d s = readScalar bound s := by
  cases d with
  | zero =>
    unfold value
    rw [hskip]
    split
    · exact absurd rfl (h '[' rfl).1
    · exact absurd rfl (h '\x7b' rfl).2
    · rfl
  | succ d =>
    unfold value
    rw [hskip]
    split
    · exact absurd rfl (h '[' rfl).1
    · exact absurd rfl (h '\x7b' rfl).2
    · rfl

/-- A value that is not between brackets, or in which no bracket may be open. -/
theorem value_scalar {s rest : List Char} {v : Json}
    (h : readScalar bound (skipSpace s) = .ok (v, rest)) (d : Nat) :
    ∃ w t, White w ∧ Shallow d t v ∧ s = w ++ t ++ rest := by
  obtain ⟨w, hw, hs⟩ := white_append_skipSpace s
  obtain ⟨t, ⟨ht, hdepth⟩, hskip⟩ := readScalar_sound h
  exact ⟨w, t, hw, ⟨ht, hdepth.trans (Nat.zero_le d)⟩, by rw [hs, hskip, List.append_assoc]⟩

theorem walks_plain {α : Type} (item : List Char → Except Fault (α × List Char)) :
    Walks item (fun (_ : Unit) k s => do
      let (m, s) ← readMember item k s
      return (m, (), s)) fun _ m => some (m, ()) where
  member_iff := by
    intro _ _ k s rest m
    rw [bind_eq_ok]
    constructor
    · rintro ⟨⟨m', s'⟩, hread, hm⟩
      cases hm
      exact ⟨m, hread, rfl⟩
    · rintro ⟨m', hread, hm⟩
      cases hm
      exact ⟨⟨m, rest⟩, hread, rfl⟩

theorem scalar_of_depth_eq_zero {t : List Char} {v : Json} (h : Denotes t v) (hv : v.depth = 0)
    (rest : List Char) : Scalar (t ++ rest) := by
  intro c hc
  cases h with
  | null =>
    obtain rfl : 'n' = c := by simpa using hc
    decide
  | bool b =>
    cases b with
    | true =>
      obtain rfl : 't' = c := by simpa using hc
      decide
    | false =>
      obtain rfl : 'f' = c := by simpa using hc
      decide
  | number ht _ =>
    obtain ⟨d, u, rfl, hd⟩ := ht.head
    obtain rfl : d = c := by simpa using hc
    constructor <;> rintro rfl <;> revert hd <;> decide
  | string ht =>
    obtain ⟨_⟩ := ht
    obtain rfl : '"' = c := by simpa using hc
    decide
  | array _ => cases hv
  | object _ => cases hv

theorem value_complete_scalar {t rest : List Char} {v : Json} (h : Denotes t v)
    (hv : v.depth = 0) (hrest : Stop rest) (hbound : (t ++ rest).length ≤ bound) (d : Nat) :
    value bound d (t ++ rest) = .ok (v, rest) := by
  have hskip : skipSpace (t ++ rest) = t ++ rest := h.starts.skipSpace_eq white_nil rest
  rw [value_eq_readScalar (scalar_of_depth_eq_zero h hv rest) hskip]
  exact readScalar_complete h hv hrest hbound

theorem reads_value_zero : Reads bound (value bound 0) (Shallow 0) where
  sound := by
    intro s rest v h
    unfold value at h
    split at h
    · cases h
    · cases h
    · exact value_scalar h 0
  complete := fun ht hrest hbound =>
    value_complete_scalar ht.1 (Nat.le_zero.mp ht.2) hrest hbound 0
  starts := fun ht => ht.1.starts

/-- What a text gives with one more bracket allowed: what stands between brackets, or a scalar. -/
theorem value_succ_eq_ok_iff {d : Nat} {s rest : List Char} {v : Json} :
    value bound (d + 1) s = .ok (v, rest) ↔
      (∃ u vs, skipSpace s = '[' :: u ∧ v = .array vs ∧ vs.length ≤ bound ∧
        Encloses ']' (value bound d) vs u rest) ∨
      (∃ u ms, skipSpace s = '\x7b' :: u ∧ v = .object ms ∧ ms.length ≤ bound ∧
        Encloses '\x7d' (Reader.entry bound (value bound d)) ms u rest) ∨
      (Scalar (skipSpace s) ∧ readScalar bound (skipSpace s) = .ok (v, rest)) := by
  unfold value
  constructor
  · intro h
    split at h
    next u hskip =>
      obtain ⟨⟨vs, s'⟩, hitems, hv⟩ := bind_eq_ok.mp h
      cases hv
      obtain ⟨hencloses, hlength⟩ := readItems_eq_ok_iff.mp hitems
      exact .inl ⟨u, vs, hskip, rfl, hlength, hencloses⟩
    next u hskip =>
      obtain ⟨⟨ms, s'⟩, hmembers, hv⟩ := bind_eq_ok.mp h
      cases hv
      obtain ⟨ms', hencloses, hlength, hwalk⟩ :=
        (readMembers_eq_ok_iff (walks_plain _)).mp hmembers
      obtain rfl : ms' = ms := by simpa [walk_plain] using hwalk
      exact .inr (.inl ⟨u, ms', hskip, rfl, hlength, hencloses⟩)
    next hbracket hbrace =>
      exact .inr (.inr ⟨scalar_of_ne hbracket hbrace, h⟩)
  · rintro (⟨u, vs, hskip, rfl, hlength, hencloses⟩ | ⟨u, ms, hskip, rfl, hlength, hencloses⟩ |
      ⟨hscalar, hread⟩)
    · have hitems := readItems_eq_ok_iff.mpr ⟨hencloses, hlength⟩
      simp [hskip, hitems, pure, Except.pure]
    · have hmembers := (readMembers_eq_ok_iff (walks_plain (value bound d))).mpr
        ⟨ms, hencloses, hlength, walk_plain ms⟩
      simp only [hskip]
      exact congrArg (· >>= fun p => pure (Json.object p.1, p.2)) hmembers
    · split
      next hskip => exact absurd rfl (hscalar '[' (by rw [hskip]; rfl)).1
      next hskip => exact absurd rfl (hscalar '\x7b' (by rw [hskip]; rfl)).2
      next => exact hread

theorem reads_value_succ {d : Nat} (ih : Reads bound (value bound d) (Shallow d)) :
    Reads bound (value bound (d + 1)) (Shallow (d + 1)) where
  sound := by
    intro s rest v h
    obtain ⟨w, hw, hs⟩ := white_append_skipSpace s
    rcases value_succ_eq_ok_iff.mp h with ⟨u, vs, hskip, rfl, -, hencloses⟩ |
      ⟨u, ms, hskip, rfl, -, hencloses⟩ | ⟨-, hread⟩
    · obtain ⟨t, ht, rfl⟩ := hencloses.sound ih
      obtain ⟨hseries, hdepth⟩ := series_shallow_iff.mp ht
      refine ⟨w, _, hw, ⟨.array hseries, Nat.succ_le_succ hdepth⟩, ?_⟩
      rw [hs, hskip]
      simp
    · obtain ⟨t, ht, rfl⟩ := hencloses.sound (ih.entry fun _ _ hw => value_append hw d _)
      obtain ⟨hseries, hdepth⟩ := series_paired_shallow_iff.mp ht
      refine ⟨w, _, hw, ⟨.object hseries, Nat.succ_le_succ hdepth⟩, ?_⟩
      rw [hs, hskip]
      simp
    · exact value_scalar hread (d + 1)
  complete := by
    rintro t rest v ⟨ht, hdepth⟩ hrest hbound
    by_cases hv : v.depth = 0
    · exact value_complete_scalar ht hv hrest hbound (d + 1)
    cases ht with
    | null | bool _ | string _ => exact absurd rfl hv
    | number _ hl => cases hl <;> exact absurd rfl hv
    | array hseries =>
      rename_i t vs
      have hsplit : '[' :: t ++ [']'] ++ rest = '[' :: (t ++ ']' :: rest) := by simp
      rw [hsplit] at hbound ⊢
      rw [List.length_cons] at hbound
      have hencloses := Encloses.complete ih (.inl rfl)
        (series_shallow_iff.mpr ⟨hseries, Nat.le_of_succ_le_succ hdepth⟩) rest (by omega)
      have hlength := hencloses.length_le ih
      exact value_succ_eq_ok_iff.mpr
        (.inl ⟨_, vs, skipSpace_cons rfl _, rfl, by omega, hencloses⟩)
    | object hseries =>
      rename_i t ms
      have hentry : Reads bound (Reader.entry bound (value bound d)) (Paired (Shallow d)) :=
        ih.entry fun _ _ hw => value_append hw d _
      have hsplit : '\x7b' :: t ++ ['\x7d'] ++ rest = '\x7b' :: (t ++ '\x7d' :: rest) := by simp
      rw [hsplit] at hbound ⊢
      rw [List.length_cons] at hbound
      have hencloses := Encloses.complete hentry (.inr rfl)
        (series_paired_shallow_iff.mpr ⟨hseries, Nat.le_of_succ_le_succ hdepth⟩) rest (by omega)
      have hlength := hencloses.length_le hentry
      exact value_succ_eq_ok_iff.mpr
        (.inr (.inl ⟨_, ms, skipSpace_cons rfl _, rfl, by omega, hencloses⟩))
  starts := fun ht => ht.1.starts

/-- The reader of values reads the texts that are not too deep. -/
theorem reads_value (bound : Nat) : ∀ d, Reads bound (value bound d) (Shallow d)
  | 0 => reads_value_zero
  | d + 1 => reads_value_succ (reads_value bound d)

theorem readEnd_eq_ok_iff {s : List Char} : readEnd s = .ok () ↔ White s := by
  unfold readEnd
  constructor
  · intro h
    obtain ⟨w, hw, hs⟩ := white_append_skipSpace s
    split at h
    next hskip =>
      rw [hs, hskip, List.append_nil]
      exact hw
    · cases h
  · intro h
    have hskip : skipSpace s = [] := by simpa [skipSpace] using skipSpace_append h []
    rw [hskip]

theorem stop_of_white {w : List Char} (h : White w) : Stop w := fun c hc =>
  .inl (h c (List.mem_of_mem_head? hc))

end Reader

/-- A text is read if and only if it is the text of a value that is not too deep. -/
theorem read?_eq_ok_iff {d : Nat} {text : List Char} {v : Json} :
    read? d text = .ok v ↔ IsText text v ∧ v.depth ≤ d := by
  have hread := Reader.reads_value text.length d
  constructor
  · intro h
    obtain ⟨⟨v', s⟩, hvalue, h⟩ := bind_eq_ok.mp h
    obtain ⟨⟨⟩, hend, h⟩ := bind_eq_ok.mp h
    cases h
    obtain ⟨w, t, hw, ⟨ht, hdepth⟩, hs⟩ := hread.sound hvalue
    exact ⟨hs ▸ .mk hw ht (Reader.readEnd_eq_ok_iff.mp hend), hdepth⟩
  · rintro ⟨htext, hdepth⟩
    obtain ⟨hw, ht, hw'⟩ := htext
    rename_i w t w'
    have hvalue : Reader.value (w ++ t ++ w').length d (w ++ t ++ w') = .ok (v, w') := by
      rw [List.append_assoc, Reader.value_append hw]
      exact (Reader.reads_value _ d).complete ⟨ht, hdepth⟩ (Reader.stop_of_white hw') (by simp)
    simp only [read?, hvalue, ok_bind, Reader.readEnd_eq_ok_iff.mpr hw']
    rfl

/-- A text has one value at most. -/
theorem IsText.unique {text : List Char} {v v' : Json} (h : IsText text v) (h' : IsText text v') :
    v = v' := by
  have hv := read?_eq_ok_iff.mpr ⟨h, Nat.le_max_left v.depth v'.depth⟩
  have hv' := read?_eq_ok_iff.mpr ⟨h', Nat.le_max_right v.depth v'.depth⟩
  exact Except.ok.inj (hv.symm.trans hv')

end Json
end PacedJobs
