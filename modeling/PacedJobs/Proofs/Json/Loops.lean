import Mathlib.Data.List.TakeWhile
import PacedJobs.Proofs.Json.Strings

/-!
# Reading between brackets

The loops over elements and over members do the same with different readers: they take one entry
after the other, with commas between them, up to the bracket that closes them. What a loop gives is
described here without its bound, and that is what the grammar says about series. A loop that
carries a state gives what a walk over the plain members gives.
-/

namespace PacedJobs
namespace Json
namespace Reader

/-! ### White space -/

theorem skipSpace_append {w : List Char} (h : White w) (s : List Char) :
    skipSpace (w ++ s) = skipSpace s :=
  List.dropWhile_append_of_pos h

theorem skipSpace_cons {c : Char} (h : isSpace c = false) (s : List Char) :
    skipSpace (c :: s) = c :: s := by
  simp [skipSpace, h]

theorem white_append_skipSpace (s : List Char) : ∃ w, White w ∧ s = w ++ skipSpace s :=
  ⟨s.takeWhile isSpace, fun _ hc => List.mem_takeWhile_imp hc,
    (List.takeWhile_append_dropWhile (p := isSpace)).symm⟩

/-- The next text of some entry, whether that is a value or a member. -/
def Starts (t : List Char) : Prop :=
  ∃ c u, t = c :: u ∧ isSpace c = false ∧ c ≠ ',' ∧ c ≠ ']' ∧ c ≠ '\x7d'

/-- Nothing is next that could go on with a value. -/
def Stop (s : List Char) : Prop :=
  ∀ c ∈ s.head?, isSpace c = true ∨ c = ',' ∨ c = ']' ∨ c = '\x7d'

/-! ### Readers and the texts that they read -/

section

variable {α : Type}

/-- A reader takes the texts of a relation, with white space before them, and no others. -/
structure Reads (bound : Nat) (item : List Char → Except Fault (α × List Char))
    (R : List Char → α → Prop) : Prop where
  sound : ∀ {s rest : List Char} {x : α}, item s = .ok (x, rest) →
    ∃ w t, White w ∧ R t x ∧ s = w ++ t ++ rest
  complete : ∀ {t rest : List Char} {x : α}, R t x → Stop rest → (t ++ rest).length ≤ bound →
    item (t ++ rest) = .ok (x, rest)
  starts : ∀ {t : List Char} {x : α}, R t x → Starts t

/-- Something other than the closing bracket is next. -/
def Opens (close : Char) (s : List Char) : Prop :=
  ∃ c u, s = c :: u ∧ c ≠ close

/-- What is read behind an entry up to the closing bracket. -/
inductive Follows (close : Char) (item : List Char → Except Fault (α × List Char)) :
    List α → List Char → List Char → Prop
  | close {s rest : List Char} : skipSpace s = close :: rest → Follows close item [] s rest
  | comma {s u s' rest : List Char} {x : α} {xs : List α} : skipSpace s = ',' :: u →
      Opens close (skipSpace u) → item (skipSpace u) = .ok (x, s') →
      Follows close item xs s' rest → Follows close item (x :: xs) s rest

/-- What is read behind an opening bracket up to the closing one. -/
inductive Encloses (close : Char) (item : List Char → Except Fault (α × List Char)) :
    List α → List Char → List Char → Prop
  | empty {s rest : List Char} : skipSpace s = close :: rest → Encloses close item [] s rest
  | entries {s s' rest : List Char} {x : α} {xs : List α} : Opens close (skipSpace s) →
      item (skipSpace s) = .ok (x, s') → Follows close item xs s' rest →
      Encloses close item (x :: xs) s rest

theorem opens_of_ne {close : Char} {s : List Char} (hnil : s ≠ [])
    (hclose : ∀ u, s ≠ close :: u) : Opens close s := by
  cases s with
  | nil => exact absurd rfl hnil
  | cons c u => exact ⟨c, u, rfl, fun hc => hclose u (by rw [hc])⟩

variable {bound : Nat} {close : Char} {item : List Char → Except Fault (α × List Char)}
  {R : List Char → α → Prop} {xs : List α} {s rest : List Char}

theorem Follows.length_lt (hread : Reads bound item R) (h : Follows close item xs s rest) :
    xs.length < s.length := by
  induction h with
  | @close s rest h =>
    obtain ⟨w, -, hs⟩ := white_append_skipSpace s
    rw [hs, h]
    simp only [List.length_nil, List.length_append, List.length_cons]
    omega
  | @comma s u s' rest x xs hcomma _ hitem _ ih =>
    obtain ⟨w, -, hs⟩ := white_append_skipSpace s
    obtain ⟨w', -, hu⟩ := white_append_skipSpace u
    obtain ⟨w'', t, -, -, hskip⟩ := hread.sound hitem
    rw [hs, hcomma, hu, hskip]
    simp only [List.length_cons, List.length_append]
    omega

theorem Encloses.length_le (hread : Reads bound item R) (h : Encloses close item xs s rest) :
    xs.length ≤ s.length := by
  cases h with
  | empty _ => exact Nat.zero_le _
  | entries _ hitem hfollows =>
    obtain ⟨w, -, hs⟩ := white_append_skipSpace s
    obtain ⟨w', t, -, -, hskip⟩ := hread.sound hitem
    have hlength := hfollows.length_lt hread
    rw [hs, hskip]
    simp only [List.length_cons, List.length_append]
    omega

theorem Follows.sound (hread : Reads bound item R) (h : Follows close item xs s rest) :
    ∃ w ts, White w ∧ List.Forall₂ (Padded R) ts xs ∧
      s = w ++ ts.flatMap (',' :: ·) ++ close :: rest := by
  induction h with
  | @close s rest h =>
    obtain ⟨w, hw, hs⟩ := white_append_skipSpace s
    exact ⟨w, [], hw, .nil, by simpa [h] using hs⟩
  | @comma s u s' rest x xs hcomma _ hitem _ ih =>
    obtain ⟨w, hw, hs⟩ := white_append_skipSpace s
    obtain ⟨w₁, hw₁, hu⟩ := white_append_skipSpace u
    obtain ⟨w₂, t, hw₂, ht, hskip⟩ := hread.sound hitem
    obtain ⟨w₃, ts, hw₃, hts, rfl⟩ := ih
    have hpadded : Padded R (w₁ ++ w₂ ++ t ++ w₃) x :=
      .mk (fun c hc => (List.mem_append.mp hc).elim (hw₁ c) (hw₂ c)) ht hw₃
    refine ⟨w, (w₁ ++ w₂ ++ t ++ w₃) :: ts, hw, .cons hpadded hts, ?_⟩
    rw [hs, hcomma, hu, hskip]
    simp only [List.flatMap_cons, List.cons_append, List.append_assoc]

theorem Encloses.sound (hread : Reads bound item R) (h : Encloses close item xs s rest) :
    ∃ t, Series R t xs ∧ s = t ++ close :: rest := by
  cases h with
  | empty h =>
    obtain ⟨w, hw, hs⟩ := white_append_skipSpace s
    exact ⟨w, .none hw, by rwa [h] at hs⟩
  | entries _ hitem hfollows =>
    obtain ⟨w, hw, hs⟩ := white_append_skipSpace s
    obtain ⟨w₁, t, hw₁, ht, hskip⟩ := hread.sound hitem
    obtain ⟨w₂, ts, hw₂, hts, rfl⟩ := hfollows.sound hread
    have hpadded : Padded R (w ++ w₁ ++ t ++ w₂) _ :=
      .mk (fun c hc => (List.mem_append.mp hc).elim (hw c) (hw₁ c)) ht hw₂
    refine ⟨_, .some hpadded hts, ?_⟩
    rw [hs, hskip]
    simp only [List.append_assoc]

theorem Starts.skipSpace_eq {w t : List Char} (h : Starts t) (hw : White w) (s : List Char) :
    skipSpace (w ++ t ++ s) = t ++ s := by
  obtain ⟨c, u, rfl, hc, -⟩ := h
  rw [List.append_assoc, skipSpace_append hw, List.cons_append, skipSpace_cons hc]

theorem Starts.opens {t : List Char} (h : Starts t) (hclose : close = ']' ∨ close = '\x7d')
    (s : List Char) : Opens close (t ++ s) := by
  obtain ⟨c, u, rfl, -, -, hbracket, hbrace⟩ := h
  refine ⟨c, u ++ s, rfl, ?_⟩
  rcases hclose with rfl | rfl
  · exact hbracket
  · exact hbrace

theorem stop_series {w : List Char} (hw : White w) (ts : List (List Char))
    (hclose : close = ']' ∨ close = '\x7d') (rest : List Char) :
    Stop (w ++ ts.flatMap (',' :: ·) ++ close :: rest) := by
  intro c hc
  cases w with
  | cons d w =>
    obtain rfl : d = c := by simpa using hc
    exact .inl (hw d List.mem_cons_self)
  | nil =>
    cases ts with
    | nil =>
      obtain rfl : close = c := by simpa using hc
      exact .inr (.inr hclose)
    | cons t ts =>
      obtain rfl : ',' = c := by simpa using hc
      exact .inr (.inl rfl)

theorem skipSpace_close {w : List Char} (hw : White w) (hclose : close = ']' ∨ close = '\x7d')
    (rest : List Char) : skipSpace (w ++ close :: rest) = close :: rest := by
  rw [skipSpace_append hw]
  rcases hclose with rfl | rfl <;> rfl

theorem Follows.complete (hread : Reads bound item R) (hclose : close = ']' ∨ close = '\x7d')
    {ts : List (List Char)} (hts : List.Forall₂ (Padded R) ts xs) {w : List Char} (hw : White w)
    (rest : List Char)
    (hbound : (w ++ ts.flatMap (',' :: ·) ++ close :: rest).length ≤ bound) :
    Follows close item xs (w ++ ts.flatMap (',' :: ·) ++ close :: rest) rest := by
  induction hts generalizing w with
  | nil => exact .close (by simpa using skipSpace_close hw hclose rest)
  | @cons t x ts xs ht _ ih =>
    obtain ⟨hw₁, ht, hw₂⟩ := ht
    rename_i w₁ t w₂
    have hskip : skipSpace (w ++ ((w₁ ++ t ++ w₂) :: ts).flatMap (',' :: ·) ++ close :: rest) =
        ',' :: (w₁ ++ t ++ (w₂ ++ ts.flatMap (',' :: ·) ++ close :: rest)) := by
      rw [List.append_assoc, skipSpace_append hw, List.flatMap_cons, List.cons_append,
        List.cons_append, skipSpace_cons rfl]
      simp only [List.append_assoc]
    simp only [List.flatMap_cons, List.length_append, List.length_cons] at hbound
    have hstart := (hread.starts ht).skipSpace_eq hw₁
      (w₂ ++ ts.flatMap (',' :: ·) ++ close :: rest)
    refine .comma hskip ?_ ?_ (ih hw₂ (by simp only [List.length_append, List.length_cons]; omega))
    · rw [hstart]
      exact (hread.starts ht).opens hclose _
    · rw [hstart]
      refine hread.complete ht (stop_series hw₂ ts hclose rest) ?_
      simp only [List.length_append, List.length_cons]
      omega

theorem Encloses.complete (hread : Reads bound item R) (hclose : close = ']' ∨ close = '\x7d')
    {t : List Char} (ht : Series R t xs) (rest : List Char)
    (hbound : (t ++ close :: rest).length ≤ bound) :
    Encloses close item xs (t ++ close :: rest) rest := by
  cases ht with
  | none hw => exact .empty (skipSpace_close hw hclose rest)
  | some ht hts =>
    obtain ⟨hw₁, ht, hw₂⟩ := ht
    rename_i ts x xs w₁ t w₂
    have hsplit : w₁ ++ t ++ w₂ ++ ts.flatMap (',' :: ·) ++ close :: rest =
        w₁ ++ t ++ (w₂ ++ ts.flatMap (',' :: ·) ++ close :: rest) := by
      simp only [List.append_assoc]
    have hstart := (hread.starts ht).skipSpace_eq hw₁
      (w₂ ++ ts.flatMap (',' :: ·) ++ close :: rest)
    rw [hsplit] at hbound ⊢
    rw [List.append_assoc, List.length_append] at hbound
    have hitem : item (skipSpace (w₁ ++ t ++ (w₂ ++ ts.flatMap (',' :: ·) ++ close :: rest))) =
        .ok (x, w₂ ++ ts.flatMap (',' :: ·) ++ close :: rest) := by
      rw [hstart]
      exact hread.complete ht (stop_series hw₂ ts hclose rest) (by omega)
    rw [List.length_append] at hbound
    refine .entries ?_ hitem (Follows.complete hread hclose hts hw₂ rest (by omega))
    rw [hstart]
    exact (hread.starts ht).opens hclose _

end

/-! ### The loops -/

section

variable {α : Type} {item : List Char → Except Fault (α × List Char)}

theorem moreItems_eq_ok_iff {n : Nat} {xs : List α} {s rest : List Char} :
    moreItems item n s = .ok (xs, rest) ↔ Follows ']' item xs s rest ∧ xs.length < n := by
  induction n generalizing xs s with
  | zero => simp [moreItems]
  | succ n ih =>
    unfold moreItems
    constructor
    · intro h
      split at h
      · cases h
      next hskip =>
        cases h
        exact ⟨.close hskip, by simp⟩
      next u hskip =>
        split at h
        · cases h
        · cases h
        next hnil hclose =>
          obtain ⟨⟨x, s₁⟩, hitem, hmore⟩ := bind_eq_ok.mp h
          obtain ⟨⟨xs', s₂⟩, hmore', hxs⟩ := bind_eq_ok.mp hmore
          cases hxs
          obtain ⟨hfollows, hlength⟩ := ih.mp hmore'
          exact ⟨.comma hskip (opens_of_ne hnil hclose) hitem hfollows, by simpa using hlength⟩
      · cases h
    · rintro ⟨hfollows, hlength⟩
      cases hfollows with
      | close h => simp [h]
      | comma hskip hopens hitem hmore =>
        obtain ⟨c, u', hu, hc⟩ := hopens
        have hrest := ih.mpr ⟨hmore, by simpa using hlength⟩
        rw [hskip]
        rw [hu] at hitem
        simp only [hu]
        split
        next heq => cases heq
        next heq =>
          cases heq
          exact absurd rfl hc
        next => simp [hitem, hrest, pure, Except.pure]

theorem readItems_eq_ok_iff {bound : Nat} {xs : List α} {s rest : List Char} :
    readItems bound item s = .ok (xs, rest) ↔
      Encloses ']' item xs s rest ∧ xs.length ≤ bound := by
  unfold readItems
  constructor
  · intro h
    split at h
    · cases h
    next hskip =>
      cases h
      exact ⟨.empty hskip, by simp⟩
    next hnil hclose =>
      obtain ⟨⟨x, s₁⟩, hitem, hmore⟩ := bind_eq_ok.mp h
      obtain ⟨⟨xs', s₂⟩, hmore', hxs⟩ := bind_eq_ok.mp hmore
      cases hxs
      obtain ⟨hfollows, hlength⟩ := moreItems_eq_ok_iff.mp hmore'
      exact ⟨.entries (opens_of_ne hnil hclose) hitem hfollows, hlength⟩
  · rintro ⟨hencloses, hlength⟩
    cases hencloses with
    | empty h => simp [h]
    | entries hopens hitem hfollows =>
      obtain ⟨c, u, hu, hc⟩ := hopens
      have hmore := moreItems_eq_ok_iff.mpr ⟨hfollows, hlength⟩
      rw [hu] at hitem
      simp only [hu]
      split
      next heq => cases heq
      next heq =>
        cases heq
        exact absurd rfl hc
      next => simp [hitem, hmore, pure, Except.pure]

def entry (bound : Nat) (item : List Char → Except Fault (α × List Char)) (s : List Char) :
    Except Fault ((String × α) × List Char) := do
  let (k, s) ← readKey bound s
  readMember item k s

end

section

variable {α β σ : Type}

def walk (step : σ → α → Option (β × σ)) : σ → List α → Option (List β)
  | _, [] => some []
  | state, m :: ms => do
    let (x, state) ← step state m
    let xs ← walk step state ms
    return x :: xs

theorem walk_cons_eq_some_iff {step : σ → α → Option (β × σ)} {state : σ} {m : α} {ms : List α}
    {ys : List β} : walk step state (m :: ms) = some ys ↔
      ∃ y state' ys', step state m = some (y, state') ∧ walk step state' ms = some ys' ∧
        ys = y :: ys' := by
  simp only [walk, Option.bind_eq_bind, Option.bind_eq_some_iff, Option.pure_def, Option.some_inj]
  constructor
  · rintro ⟨⟨y, state'⟩, hstep, ys', hwalk, rfl⟩
    exact ⟨y, state', ys', hstep, hwalk, rfl⟩
  · rintro ⟨y, state', ys', hstep, hwalk, rfl⟩
    exact ⟨⟨y, state'⟩, hstep, ys', hwalk, rfl⟩

theorem walk_plain (ms : List α) : walk (fun (_ : Unit) m => some (m, ())) () ms = some ms := by
  induction ms with
  | nil => rfl
  | cons m ms ih => simp [walk, ih]

/-- The reader of a member reads it as a plain one and then takes a step. -/
structure Walks (item : List Char → Except Fault (α × List Char))
    (member : σ → String → List Char → Except Fault (β × σ × List Char))
    (step : σ → String × α → Option (β × σ)) : Prop where
  member_iff : ∀ {state state' : σ} {k : String} {s rest : List Char} {y : β},
    member state k s = .ok (y, state', rest) ↔
      ∃ m, readMember item k s = .ok (m, rest) ∧ step state m = some (y, state')

variable {bound : Nat} {item : List Char → Except Fault (α × List Char)}
  {member : σ → String → List Char → Except Fault (β × σ × List Char)}
  {step : σ → String × α → Option (β × σ)} {state : σ} {ys : List β} {s rest : List Char}

theorem Walks.entry_iff (hwalks : Walks item member step) {state' : σ} {y : β} :
    (∃ k s', readKey bound s = .ok (k, s') ∧ member state k s' = .ok (y, state', rest)) ↔
      ∃ m, entry bound item s = .ok (m, rest) ∧ step state m = some (y, state') := by
  constructor
  · rintro ⟨k, s', hkey, hmember⟩
    obtain ⟨m, hm, hstep⟩ := hwalks.member_iff.mp hmember
    exact ⟨m, by simpa [entry, hkey] using hm, hstep⟩
  · rintro ⟨m, hentry, hstep⟩
    obtain ⟨⟨k, s'⟩, hkey, hm⟩ := bind_eq_ok.mp hentry
    exact ⟨k, s', hkey, hwalks.member_iff.mpr ⟨m, hm, hstep⟩⟩

theorem moreMembers_eq_ok_iff (hwalks : Walks item member step) {n : Nat} :
    moreMembers bound member n state s = .ok (ys, rest) ↔
      ∃ ms, Follows '\x7d' (entry bound item) ms s rest ∧ ms.length < n ∧
        walk step state ms = some ys := by
  induction n generalizing ys s state with
  | zero => simp [moreMembers]
  | succ n ih =>
    unfold moreMembers
    constructor
    · intro h
      split at h
      · cases h
      next hskip =>
        cases h
        exact ⟨[], .close hskip, by simp, rfl⟩
      next u hskip =>
        split at h
        · cases h
        · cases h
        next hnil hclose =>
          obtain ⟨⟨k, s₁⟩, hkey, hmore⟩ := bind_eq_ok.mp h
          obtain ⟨⟨y, state', s₂⟩, hmember, hmore⟩ := bind_eq_ok.mp hmore
          obtain ⟨⟨ys', s₃⟩, hmore', hys⟩ := bind_eq_ok.mp hmore
          cases hys
          obtain ⟨m, hentry, hstep⟩ := hwalks.entry_iff.mp ⟨k, s₁, hkey, hmember⟩
          obtain ⟨ms, hfollows, hlength, hwalk⟩ := ih.mp hmore'
          exact ⟨m :: ms, .comma hskip (opens_of_ne hnil hclose) hentry hfollows,
            by simpa using hlength,
            walk_cons_eq_some_iff.mpr ⟨y, state', ys', hstep, hwalk, rfl⟩⟩
      · cases h
    · rintro ⟨ms, hfollows, hlength, hwalk⟩
      cases hfollows with
      | close h =>
        cases hwalk
        simp [h]
      | comma hskip hopens hentry hmore =>
        obtain ⟨y, state', ys', hstep, hrun, rfl⟩ := walk_cons_eq_some_iff.mp hwalk
        obtain ⟨c, u', hu, hc⟩ := hopens
        have hrest := ih.mpr ⟨_, hmore, by simpa using hlength, hrun⟩
        obtain ⟨k, s₁, hkey, hmember⟩ := hwalks.entry_iff.mpr ⟨_, hentry, hstep⟩
        rw [hskip]
        rw [hu] at hkey
        simp only [hu]
        split
        next heq => cases heq
        next heq =>
          cases heq
          exact absurd rfl hc
        next => simp [hkey, hmember, hrest, pure, Except.pure]

theorem readMembers_eq_ok_iff (hwalks : Walks item member step) :
    readMembers bound member state s = .ok (ys, rest) ↔
      ∃ ms, Encloses '\x7d' (entry bound item) ms s rest ∧ ms.length ≤ bound ∧
        walk step state ms = some ys := by
  unfold readMembers
  constructor
  · intro h
    split at h
    · cases h
    next hskip =>
      cases h
      exact ⟨[], .empty hskip, by simp, rfl⟩
    next hnil hclose =>
      obtain ⟨⟨k, s₁⟩, hkey, hmore⟩ := bind_eq_ok.mp h
      obtain ⟨⟨y, state', s₂⟩, hmember, hmore⟩ := bind_eq_ok.mp hmore
      obtain ⟨⟨ys', s₃⟩, hmore', hys⟩ := bind_eq_ok.mp hmore
      cases hys
      obtain ⟨m, hentry, hstep⟩ := hwalks.entry_iff.mp ⟨k, s₁, hkey, hmember⟩
      obtain ⟨ms, hfollows, hlength, hwalk⟩ := (moreMembers_eq_ok_iff hwalks).mp hmore'
      exact ⟨m :: ms, .entries (opens_of_ne hnil hclose) hentry hfollows, hlength,
        walk_cons_eq_some_iff.mpr ⟨y, state', ys', hstep, hwalk, rfl⟩⟩
  · rintro ⟨ms, hencloses, hlength, hwalk⟩
    cases hencloses with
    | empty h =>
      cases hwalk
      simp [h]
    | entries hopens hentry hfollows =>
      obtain ⟨y, state', ys', hstep, hrun, rfl⟩ := walk_cons_eq_some_iff.mp hwalk
      obtain ⟨c, u, hu, hc⟩ := hopens
      have hmore := (moreMembers_eq_ok_iff hwalks).mpr
        ⟨_, hfollows, hlength, hrun⟩
      obtain ⟨k, s₁, hkey, hmember⟩ := hwalks.entry_iff.mpr ⟨_, hentry, hstep⟩
      rw [hu] at hkey
      simp only [hu]
      split
      next heq => cases heq
      next heq =>
        cases heq
        exact absurd rfl hc
      next => simp [hkey, hmember, hmore, pure, Except.pure]

end

end Reader
end Json
end PacedJobs
