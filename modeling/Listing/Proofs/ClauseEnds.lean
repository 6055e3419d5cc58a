import Listing.Proofs.BaseClauses

/-!
# Where a clause ends in two texts in a row

A lookup in the second of two texts finds what it finds in the whole, further back
(`Outline.places_behind`). So a clause that begins in front of the second text ends in it, where one
that begins with the text ends (`Site.clauseEnd_append`), also if the first text has words that
start no clause (`Site.clauseEnd_append_mute`). A text that opens with a keyword has nothing in
front of it (`Opens`), whatever follows the keyword; a stretch of a statement from the end of a
clause on is such a text (`Opens.of_place`).
-/

namespace Listing

open Text

namespace Outline

variable {k : Keyword} {ks : List Keyword} {ws V W : List Word} {n c position : Nat} {p : Place}

/-! ## Lookups -/

theorem placeAt?_behind :
    placeAt? k (ws.map (Word.behind n c)) = (placeAt? k ws).map (Place.behind n c) := by
  cases ws with
  | nil => rfl
  | cons w ws =>
    simp only [placeAt?, List.map_cons]
    obtain - | ⟨former, - | ⟨latter, - | -⟩⟩ := k.parts
    · rfl
    · by_cases hw : w.spells former = true
      · have hw' : (w.behind n c).spells former = true := hw
        simp only [hw, hw', ↓reduceIte, Option.map_some]
        rfl
      · have hw' : ¬(w.behind n c).spells former = true := hw
        simp only [hw, hw', Bool.false_eq_true, ↓reduceIte, Option.map_none]
    · cases ws with
      | nil => rfl
      | cons v ws =>
        simp only [List.map_cons]
        by_cases hwv : w.spells former = true ∧ v.spells latter = true
        · have hwv' : (w.behind n c).spells former = true ∧ (v.behind n c).spells latter = true :=
            hwv
          rw [if_pos hwv, if_pos hwv']
          rfl
        · have hwv' :
              ¬((w.behind n c).spells former = true ∧ (v.behind n c).spells latter = true) := hwv
          rw [if_neg hwv, if_neg hwv']
          rfl
    · rfl

theorem places_behind (position : Nat) :
    places ks (n + position) (ws.map (Word.behind n c)) =
      (places ks position ws).map (Place.behind n c) := by
  induction ws with
  | nil => rfl
  | cons w ws ih =>
    have hfound : ks.filterMap (placeAt? · ((w :: ws).map (Word.behind n c))) =
        (ks.filterMap (placeAt? · (w :: ws))).map (Place.behind n c) := by
      rw [List.map_filterMap]
      exact congrArg (ks.filterMap ·) (funext fun k => placeAt?_behind)
    rw [List.map_cons] at hfound
    rw [List.map_cons, places, places, List.map_append, ih, hfound]
    congr 1
    by_cases hle : position ≤ w.start
    · have hle' : n + position ≤ (w.behind n c).start := Nat.add_le_add_left hle n
      rw [if_pos hle, if_pos hle']
    · have hle' : ¬n + position ≤ (w.behind n c).start := fun h => hle (Nat.le_of_add_le_add_left h)
      rw [if_neg hle, if_neg hle']
      rfl

/-- Words that are none of a keyword make no difference to a lookup. -/
theorem places_append_of_mute (hks : ∀ k ∈ ks, k ∈ Keyword.clauses) (h : ∀ w ∈ V, Mute w.text) :
    places ks position (V ++ W) = places ks position W := by
  induction V with
  | nil => rfl
  | cons w V ih =>
    have hmute := h w List.mem_cons_self
    have hhere : ks.filterMap (placeAt? · (w :: (V ++ W))) = [] := by
      refine List.filterMap_eq_nil_iff.2 fun k hk => ?_
      cases hplace : placeAt? k (w :: (V ++ W)) with
      | none => rfl
      | some p =>
        have hstarts : startsWith k (w.text :: (V ++ W).map (·.text)) = true := by
          rw [← List.map_cons (f := fun w : Word => w.text), ← isSome_placeAt?, hplace]
          rfl
        have hopening := spelled_opening hstarts
        rw [hmute k (hks k hk) k.opening k.opening_mem] at hopening
        cases hopening
    rw [List.cons_append, places, hhere, ih fun v hv => h v (List.mem_cons_of_mem w hv)]
    split <;> rfl

theorem Occurs.of_behind (h : Occurs k (ws.map (Word.behind n c)) p) :
    ∃ q, Occurs k ws q ∧ p = q.behind n c := by
  have hmem : p ∈ places [k] (n + 0) (ws.map (Word.behind n c)) := by
    refine mem_places.2 ⟨?_, k, List.mem_singleton.2 rfl, h⟩
    obtain ⟨w, hw, v, -, rfl, -⟩ := h.words
    obtain ⟨u, -, rfl⟩ := List.mem_map.1 hw
    exact Nat.le_add_right n u.start
  rw [places_behind] at hmem
  obtain ⟨q, hq, rfl⟩ := List.mem_map.1 hmem
  obtain ⟨-, k', hk', hoccurs⟩ := mem_places.1 hq
  obtain rfl := List.mem_singleton.1 hk'
  exact ⟨q, hoccurs, rfl⟩

theorem Occurs.append_right (h : Occurs k V p) (W : List Word) : Occurs k (V ++ W) p := by
  cases h with
  | @single A B w a hparts hws hw =>
    exact .single hparts (B := B ++ W) (by rw [hws, List.append_assoc, List.cons_append]) hw
  | @pair A B w v a b hparts hws hw hv =>
    exact .pair hparts (A := A) (B := B ++ W) (by simp [hws]) hw hv

end Outline

namespace Site

open Outline

variable {text u v : List UInt8} {ks : List Keyword} {a p : Nat}

/-! ## Ends of clauses -/

/-- The end of a clause in the second of two texts. -/
theorem clauseEnd_of_words (hu : Finished u) (h : Seam u v) {position : Nat}
    (hplaces : places ks position (Outline.of (u ++ v)).words =
      (places ks 0 (Outline.of v).words).map (Place.behind u.length u.length)) :
    clauseEnd (u ++ v) ks position = u.length + clauseEnd v ks 0 := by
  have hcodeEnd : (Outline.of (u ++ v)).codeEnd = u.length + (Outline.of v).codeEnd := by
    rw [Outline.of_append hu.closed h, hu.codeEnd]
    exact codeBehind_self _ _
  rw [clauseEnd, clauseEnd, earliest?, earliest?, hplaces, List.head?_map, hcodeEnd]
  cases (places ks 0 (Outline.of v).words).head? with
  | none => rfl
  | some p => exact codeBehind_self _ _

/-- A clause that begins where the second text does. -/
theorem clauseEnd_append (hu : Finished u) (h : Seam u v) (ks : List Keyword) :
    clauseEnd (u ++ v) ks u.length = u.length + clauseEnd v ks 0 := by
  refine clauseEnd_of_words hu h ?_
  have hfront : ∀ w ∈ (Outline.of u).words, w.start < u.length := by
    intro w hw
    have hbounds := word_bounds hw
    rw [hu.codeEnd] at hbounds
    omega
  rw [words_append hu.closed h, places_append_of_lt hfront, hu.codeEnd]
  exact places_behind 0

/-- A clause that begins in front of words that end none. -/
theorem clauseEnd_append_mute (hu : Finished u) (h : Seam u v)
    (hks : ∀ k ∈ ks, k ∈ Keyword.clauses) (hmute : ∀ t ∈ topWords u, Mute t) :
    clauseEnd (u ++ v) ks 0 = u.length + clauseEnd v ks 0 := by
  refine clauseEnd_of_words hu h ?_
  have hfront : ∀ w ∈ (Outline.of u).words, Mute w.text :=
    fun w hw => hmute w.text (List.mem_map_of_mem hw)
  rw [words_append hu.closed h, places_append_of_mute hks hfront, hu.codeEnd,
    ← places_behind 0]
  -- all of these words stand behind the first text
  have hall : ∀ position, position ≤ u.length → places ks position
      ((Outline.of v).words.map (Word.behind u.length u.length)) =
        places ks u.length ((Outline.of v).words.map (Word.behind u.length u.length)) := by
    intro position hle
    induction (Outline.of v).words with
    | nil => rfl
    | cons w ws ih =>
      have hstart : u.length ≤ (w.behind u.length u.length).start := Nat.le_add_right _ _
      rw [List.map_cons, places, places, if_pos hstart, if_pos (Nat.le_trans hle hstart), ih]
  exact hall 0 (Nat.zero_le _)

/-- A text that opens with one of the keywords, no other code being in front of it. -/
def Opens (ks : List Keyword) (u : List UInt8) : Prop :=
  ∃ p ∈ places ks 0 (Outline.of u).words, p.before = 0

theorem Opens.clauseEnd_eq (h : Opens ks u) : clauseEnd u ks 0 = 0 := by
  obtain ⟨p, hp, hbefore⟩ := h
  have hle := clauseEnd_le hp
  omega

theorem Opens.append (hu : Opens ks u) (hclosed : ({} : Reader).after u = {}) (h : Seam u v) :
    Opens ks (u ++ v) := by
  obtain ⟨p, hp, hbefore⟩ := hu
  obtain ⟨hle, k, hk, hoccurs⟩ := mem_places.1 hp
  refine ⟨p, mem_places.2 ⟨hle, k, hk, ?_⟩, hbefore⟩
  rw [words_append hclosed h]
  exact hoccurs.append_right _

/-- Up to a position where a word may follow, the code reaches to the position. -/
theorem finished_take (h : Joint text p)
    (hp : p = (Outline.of text).codeEnd ∨ ∃ w ∈ (Outline.of text).words, w.before = p) :
    Finished (text.take p) := by
  have hlength : (text.take p).length = p := List.length_take_of_le h.cut.le
  have hle := codeEnd_le (text.take p)
  have houtline := Outline.of_append h.cut.reads h.seam
  rw [List.take_append_drop, hlength] at houtline
  refine ⟨h.cut.reads, hlength.symm ▸ ?_⟩
  rcases hp with hp | ⟨w, hw, hp⟩
  · rw [houtline] at hp
    unfold codeBehind at hp
    dsimp only at hp
    split at hp <;> omega
  · rw [houtline] at hw
    rcases List.mem_append.1 hw with hw | hw
    · have := word_bounds hw
      omega
    · obtain ⟨v, -, rfl⟩ := List.mem_map.1 hw
      simp only [Word.behind, codeBehind] at hp
      split at hp <;> omega

/-- A text that is cut behind one of its words ends with it. -/
theorem finished_stop {w : Word} (hw : w ∈ (Outline.of text).words) :
    Finished (text.take w.stop) := by
  obtain ⟨A, B, hws⟩ := List.append_of_mem hw
  have hwords := words_take_stop hws
  have hmem : w ∈ (Outline.of (text.take w.stop)).words := by simp [hwords]
  have hbounds := word_bounds hmem
  have hle := codeEnd_le (text.take w.stop)
  have hcut := cut_stop hw
  have hlength : (text.take w.stop).length = w.stop := List.length_take_of_le hcut.le
  exact ⟨hcut.reads, by omega⟩

theorem finished_clauseEnd (hbalanced : Balanced text) (ks : List Keyword) (a : Nat) :
    Finished (text.take (clauseEnd text ks a)) := by
  refine finished_take (joint_clauseEnd hbalanced ks a) ?_
  unfold clauseEnd
  cases hp : (Outline.of text).earliest? ks a with
  | none => exact .inl rfl
  | some q =>
    obtain ⟨w, hw, v, -, rfl, -⟩ := place_words (List.mem_of_head? hp)
    exact .inr ⟨w, hw, rfl⟩

/-- A stretch that starts where the code in front of a keyword ends opens with the keyword. -/
theorem Opens.of_place {q : Place} {m : Nat} (hp : Joint text p) (hm : Joint text m)
    (hq : q ∈ places ks a (Outline.of text).words) (hbefore : q.before = p) (hle : q.stop ≤ m) :
    Opens ks ((text.take m).drop p) := by
  have hbounds := place_bounds hq
  obtain ⟨w, hw, v, -, hqw, -, -⟩ := place_words hq
  have hfinished := finished_take hp (.inr ⟨w, hw, by rw [← hbefore, hqw]⟩)
  have hlength : (text.take p).length = p := List.length_take_of_le hp.cut.le
  obtain ⟨-, k, hk, hoccurs⟩ := mem_places.1 hq
  have hstretch := hoccurs.between (a := p) (b := m) (by omega) hle
  rw [wordsBetween_eq hp hm (by omega), hfinished.codeEnd, hlength] at hstretch
  obtain ⟨r, hr, rfl⟩ := hstretch.of_behind
  refine ⟨r, mem_places.2 ⟨Nat.zero_le _, k, hk, hr⟩, ?_⟩
  simp only [Place.behind, codeBehind_self] at hbefore
  omega

/-! ## Edits at the end of a clause -/

/-- A place that starts in front of a word ends in front of it, or with it if the word is BY. -/
theorem place_stop {q : Place} {w : Word} (hq : q ∈ places ks a (Outline.of text).words)
    (hw : w ∈ (Outline.of text).words) (hlt : q.before < w.before) :
    q.stop ≤ w.before ∨ q.stop = w.stop ∧ w.spells "by" = true := by
  obtain ⟨-, k, -, hoccurs⟩ := mem_places.1 hq
  have hwb := word_bounds hw
  have hfirst {v : Word} (hv : v ∈ (Outline.of text).words) (hlt : v.before < w.before) :
      v.stop ≤ w.before := by
    have hvb := word_bounds hv
    rcases word_trichotomy hv hw with rfl | hle | hle <;> omega
  cases hoccurs with
  | @single A B v name hparts hws hv => exact .inl (hfirst (by simp [hws]) hlt)
  | @pair A B v u former latter hparts hws hv hu =>
    have hvw := hfirst (v := v) (by simp [hws]) hlt
    have huMem : u ∈ (Outline.of text).words := by simp [hws]
    rcases word_trichotomy huMem hw with rfl | hle | hle
    · obtain rfl : latter = "by" := by
        revert hparts
        cases k <;> rintro ⟨⟩ <;> rfl
      exact .inr ⟨rfl, hu⟩
    · exact .inl hle
    · exact absurd hle (not_between hws hw hvw)

/-- An edit behind the end of a clause: it starts a clause right there, or goes behind the keyword
that does. -/
inductive Follows (text : List UInt8) (ks : List Keyword) (a : Nat) (e : Edit) : Prop
  | opens (hposition : e.position = clauseEnd text ks a)
      (hopens : ∀ v, Opens ks (bytes e.text ++ v))
  | behind (hjoint : Joint text e.position) (hparted : e.Parted)
      (hlt : clauseEnd text ks a < e.position) (hle : e.position ≤ (Outline.of text).codeEnd)
      (hplaces : ∀ q ∈ places ks a (Outline.of text).words, q.before = clauseEnd text ks a →
        q.stop ≤ e.position)

/-- What stands behind the end of a clause opens with a keyword if there is any code. -/
theorem opens_stretch {m : Nat} (hbalanced : Balanced text) (hm : Joint text m)
    (hlt : clauseEnd text ks a < m) (hle : m ≤ (Outline.of text).codeEnd)
    (hplaces : ∀ q ∈ places ks a (Outline.of text).words, q.before = clauseEnd text ks a →
      q.stop ≤ m) : Opens ks ((text.take m).drop (clauseEnd text ks a)) := by
  have hjoint := joint_clauseEnd hbalanced ks a
  unfold clauseEnd at *
  cases hq : (Outline.of text).earliest? ks a with
  | none =>
    rw [hq] at hlt
    exact absurd hlt (Nat.not_lt.2 hle)
  | some q =>
    rw [hq] at hplaces hjoint
    have hmem := List.mem_of_head? hq
    exact .of_place hjoint hm hmem rfl (hplaces q hmem rfl)

/-- A clause ends where it does also if edits follow. -/
theorem clauseEnd_weave {es : List Edit} (hbalanced : Balanced text)
    (hes : ∀ e ∈ es.head?, Follows text ks a e) :
    clauseEnd (Edit.weave (text.take (Outline.of text).codeEnd) (clauseEnd text ks a) es) ks 0 =
      0 := by
  have hjoint := joint_clauseEnd hbalanced ks a
  have hend := clauseEnd_le_codeEnd text ks a
  cases es with
  | nil =>
    rw [Edit.weave]
    rcases Nat.lt_or_eq_of_le hend with hlt | heq
    · exact (opens_stretch hbalanced (joint_codeEnd hbalanced) hlt (Nat.le_refl _)
        fun q hq _ => (place_bounds hq).2.2.1).clauseEnd_eq
    · rw [heq, List.drop_eq_nil_of_le (by rw [List.length_take]; omega)]
      exact Nat.le_zero.1 (Nat.le_trans (clauseEnd_le_codeEnd [] ks 0) (codeEnd_le []))
  | cons e es =>
    rw [Edit.weave, List.take_take]
    cases hes e rfl with
    | opens hposition hopens =>
      rw [hposition, List.drop_eq_nil_of_le (by rw [List.length_take]; omega), List.nil_append]
      exact (hopens _).clauseEnd_eq
    | behind hm hparted hlt hle hplaces =>
      obtain ⟨b, hb, hsep⟩ := hparted
      rw [Nat.min_eq_left hle]
      have hstretch := opens_stretch hbalanced hm hlt hle hplaces
      refine (hstretch.append ?_ (.of_head fun c hc => ?_)).clauseEnd_eq
      · exact (Cut.neutral_between hbalanced hjoint.cut hm.cut (Nat.le_of_lt hlt)).closed
      · rw [List.head?_append, Option.mem_def.1 hb, Option.some_or, Option.mem_some] at hc
        rwa [← hc]

end Site

end Listing
