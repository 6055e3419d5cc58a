import Listing.Proofs.Scanning

/-!
# Places of keywords

A keyword stands where the words of an outline say so (`Outline.Occurs`). The lookups of an outline
are told apart by nothing but which keywords they look for and from which position on
(`Outline.mem_places`), and the first place that one finds has no other in front of it
(`Outline.before_le_of_head?`).
-/

namespace Listing

open Text

/-- A word spells one name only, up to the case of its letters. -/
theorem Word.spells_unique {w : Word} {a b : String} (ha : w.spells a = true)
    (hb : w.spells b = true) : sameIgnoringCase (bytes a) (bytes b) = true := by
  simp only [Word.spells, sameIgnoringCase, beq_iff_eq] at ha hb ⊢
  rw [← ha, hb]

theorem Word.not_spells {w : Word} {a b : String} (ha : w.spells a = true)
    (h : sameIgnoringCase (bytes a) (bytes b) = false) : w.spells b = false := by
  cases hb : w.spells b with
  | false => rfl
  | true =>
    rw [spells_unique ha hb] at h
    cases h

/-- What limits the rows ends a predicate as well. -/
theorem Keyword.mem_afterWhere {k : Keyword} (h : k ∈ paging) : k ∈ afterWhere := by
  revert h
  cases k <;> decide

namespace Outline

variable {text : List UInt8} {w v : Word}

/-- Of two words of an outline, one stands in front of the last code before the other. -/
theorem word_trichotomy (hv : v ∈ (Outline.of text).words) (hw : w ∈ (Outline.of text).words) :
    v = w ∨ v.stop ≤ w.before ∨ w.stop ≤ v.before := by
  obtain ⟨i, hi, rfl⟩ := List.mem_iff_getElem.1 hv
  obtain ⟨j, hj, rfl⟩ := List.mem_iff_getElem.1 hw
  have hordered := List.pairwise_iff_getElem.1 (words_ordered text)
  rcases Nat.lt_trichotomy i j with hlt | rfl | hlt
  · exact .inr (.inl (hordered i j hi hj hlt))
  · exact .inl rfl
  · exact .inr (.inr (hordered j i hj hi hlt))

theorem stop_le_before (hv : v ∈ (Outline.of text).words) (hw : w ∈ (Outline.of text).words)
    (h : v.stop ≤ w.start) : v.stop ≤ w.before := by
  have hvb := word_bounds hv
  have hwb := word_bounds hw
  rcases word_trichotomy hv hw with rfl | hlt | hlt <;> omega

/-- A place is an occurrence of a keyword if its words stand there next to each other. -/
inductive Occurs (k : Keyword) (ws : List Word) : Place → Prop
  | single {A B : List Word} {w : Word} {a : String} (hparts : k.parts = [a])
      (hws : ws = A ++ w :: B) (hw : w.spells a = true) : Occurs k ws ⟨w.start, w.stop, w.before⟩
  | pair {A B : List Word} {w v : Word} {a b : String} (hparts : k.parts = [a, b])
      (hws : ws = A ++ w :: v :: B) (hw : w.spells a = true) (hv : v.spells b = true) :
      Occurs k ws ⟨w.start, v.stop, w.before⟩

theorem Occurs.cons {k : Keyword} {ws : List Word} {p : Place} (h : Occurs k ws p) (w : Word) :
    Occurs k (w :: ws) p := by
  cases h with
  | @single A B v a hparts hws hw => exact .single hparts (by rw [hws, List.cons_append]) hw
  | @pair A B u v a b hparts hws hw hv =>
    exact .pair hparts (by rw [hws, List.cons_append]) hw hv

theorem occurs_of_placeAt? {k : Keyword} {ws : List Word} {p : Place}
    (h : placeAt? k (w :: ws) = some p) : Occurs k (w :: ws) p := by
  simp only [placeAt?] at h
  split at h
  · rename_i a hparts
    split at h
    · rename_i hw
      cases h
      exact .single hparts (List.nil_append _).symm hw
    · cases h
  · rename_i a b hparts
    split at h
    · rename_i v ws
      split at h
      · rename_i hwv
        cases h
        exact .pair hparts (List.nil_append _).symm hwv.1 hwv.2
      · cases h
    · cases h
  · cases h

theorem placeAt?_start {k : Keyword} {ws : List Word} {p : Place}
    (h : placeAt? k (w :: ws) = some p) : p.start = w.start ∧ p.before = w.before := by
  simp only [placeAt?] at h
  split at h
  · split at h
    · cases h
      exact ⟨rfl, rfl⟩
    · cases h
  · split at h
    · split at h
      · cases h
        exact ⟨rfl, rfl⟩
      · cases h
    · cases h
  · cases h

/-- A lookup finds the occurrences of its keywords from its position on. -/
theorem mem_places {ks : List Keyword} {position : Nat} {ws : List Word} {p : Place} :
    p ∈ places ks position ws ↔ position ≤ p.start ∧ ∃ k ∈ ks, Occurs k ws p := by
  induction ws with
  | nil =>
    constructor
    · intro h
      cases h
    · rintro ⟨-, k, -, h⟩
      cases h with
      | single _ hws _ => simp at hws
      | pair _ hws _ _ => simp at hws
  | cons w ws ih =>
    rw [places, List.mem_append, ih]
    constructor
    · rintro (h | ⟨hle, k, hk, h⟩)
      · split at h
        · rename_i hle
          obtain ⟨k, hk, hp⟩ := List.mem_filterMap.1 h
          exact ⟨by rw [(placeAt?_start hp).1]; exact hle, k, hk, occurs_of_placeAt? hp⟩
        · cases h
      · exact ⟨hle, k, hk, h.cons w⟩
    · rintro ⟨hle, k, hk, h⟩
      cases h with
      | @single A B w' a hparts hws hw =>
        cases A with
        | nil =>
          obtain ⟨rfl, rfl⟩ := List.cons_eq_cons.1 hws
          left
          rw [if_pos hle]
          exact List.mem_filterMap.2 ⟨k, hk, by simp [placeAt?, hparts, hw]⟩
        | cons u A =>
          obtain ⟨rfl, rfl⟩ := List.cons_eq_cons.1 hws
          exact .inr ⟨hle, k, hk, .single hparts rfl hw⟩
      | @pair A B w' v a b hparts hws hw hv =>
        cases A with
        | nil =>
          obtain ⟨rfl, rfl⟩ := List.cons_eq_cons.1 hws
          left
          rw [if_pos hle]
          exact List.mem_filterMap.2 ⟨k, hk, by simp [placeAt?, hparts, hw, hv]⟩
        | cons u A =>
          obtain ⟨rfl, rfl⟩ := List.cons_eq_cons.1 hws
          exact .inr ⟨hle, k, hk, .pair hparts rfl hw hv⟩

/-- Words in front of the position of a lookup make no difference to it. -/
theorem places_append_of_lt {ks : List Keyword} {position : Nat} {V W : List Word}
    (h : ∀ w ∈ V, w.start < position) : places ks position (V ++ W) = places ks position W := by
  induction V with
  | nil => rfl
  | cons w V ih =>
    have hnot : ¬position ≤ w.start := Nat.not_le_of_lt (h w List.mem_cons_self)
    rw [List.cons_append, places, if_neg hnot, List.nil_append,
      ih fun v hv => h v (List.mem_cons_of_mem w hv)]

/-- A lookup from the end of a word on is one in the words behind it. -/
theorem places_behind_word {A B : List Word} (hws : (Outline.of text).words = A ++ w :: B)
    (ks : List Keyword) : places ks w.stop (Outline.of text).words = places ks w.stop B := by
  have hsplit : A ++ w :: B = (A ++ [w]) ++ B := by simp
  have hbounds := fun v (hv : v ∈ (Outline.of text).words) => word_bounds hv
  rw [hws] at hbounds
  rw [hws, hsplit]
  refine places_append_of_lt fun v hv => ?_
  have hwb := hbounds w (by simp)
  rcases List.mem_append.1 hv with hv | hv
  · have := stop_le_of_mem_front hws hv
    have := hbounds v (List.mem_append_left _ hv)
    omega
  · rw [List.mem_singleton.1 hv]
    exact hwb.2.1

/-- A word that spells a keyword is a place of it. -/
theorem mem_places_of_word {k : Keyword} {a : String} {position : Nat} {ws : List Word} {w : Word}
    (hparts : k.parts = [a]) (hw : w ∈ ws) (hle : position ≤ w.start)
    (hspells : w.spells a = true) : ⟨w.start, w.stop, w.before⟩ ∈ places [k] position ws := by
  obtain ⟨A, B, hws⟩ := List.append_of_mem hw
  exact mem_places.2 ⟨hle, k, List.mem_singleton.2 rfl, .single hparts hws hspells⟩

/-- The words of an occurrence. -/
theorem Occurs.words {k : Keyword} {ws : List Word} {p : Place} (h : Occurs k ws p) :
    ∃ w ∈ ws, ∃ v ∈ ws, p = ⟨w.start, v.stop, w.before⟩ ∧
      (∃ a, k.parts.head? = some a ∧ w.spells a = true) ∧
      (∃ b, k.parts.getLast? = some b ∧ v.spells b = true) ∧
      (v = w ∨ ∃ A B, ws = A ++ w :: v :: B) := by
  cases h with
  | @single A B w a hparts hws hw =>
    have hmem : w ∈ ws := by simp [hws]
    exact ⟨w, hmem, w, hmem, rfl, ⟨a, by rw [hparts]; rfl, hw⟩, ⟨a, by rw [hparts]; rfl, hw⟩,
      .inl rfl⟩
  | @pair A B w v a b hparts hws hw hv =>
    exact ⟨w, by simp [hws], v, by simp [hws], rfl, ⟨a, by rw [hparts]; rfl, hw⟩,
      ⟨b, by rw [hparts]; rfl, hv⟩, .inr ⟨A, B, hws⟩⟩

/-- Nothing that a lookup finds stands in front of what it finds first. -/
theorem before_le_of_head? {ks : List Keyword} {position : Nat} {ws : List Word} {p q : Place}
    (hws : ws.Pairwise fun w w' => w.stop ≤ w'.before) (hbounds : ∀ w ∈ ws, w.before ≤ w.stop)
    (hp : (places ks position ws).head? = some p) (hq : q ∈ places ks position ws) :
    p.before ≤ q.before := by
  induction ws with
  | nil => cases hq
  | cons w ws ih =>
    obtain ⟨hw, hws'⟩ := List.pairwise_cons.1 hws
    have hbounds' : ∀ v ∈ ws, v.before ≤ v.stop := fun v hv => hbounds v (List.mem_cons_of_mem w hv)
    rw [places] at hp hq
    generalize hhere : (if position ≤ w.start then ks.filterMap (placeAt? · (w :: ws)) else []) =
      here at hp hq
    have hat : ∀ r ∈ here, r.before = w.before := by
      intro r hr
      rw [← hhere] at hr
      split at hr
      · obtain ⟨k, _, hk⟩ := List.mem_filterMap.1 hr
        exact (placeAt?_start hk).2
      · cases hr
    have hlater : ∀ r ∈ places ks position ws, w.before ≤ r.before := by
      intro r hr
      obtain ⟨-, k, -, hoccurs⟩ := mem_places.1 hr
      obtain ⟨v, hv, u, -, rfl, -⟩ := hoccurs.words
      have := hw v hv
      have := hbounds w List.mem_cons_self
      dsimp only
      omega
    cases here with
    | nil => exact ih hws' hbounds' hp hq
    | cons r here =>
      obtain rfl : r = p := by simpa using hp
      rw [hat r List.mem_cons_self]
      rcases List.mem_append.1 hq with hq | hq
      · exact Nat.le_of_eq (hat q hq).symm
      · exact hlater q hq

end Outline

end Listing
