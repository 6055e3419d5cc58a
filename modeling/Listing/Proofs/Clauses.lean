import Listing.Proofs.Places

/-!
# Clauses of a statement

Which clauses the words of a statement start, and in which order. `Outline.clauses?` lists the
keywords behind the first FROM of the first SELECT, as the lookups of an outline find them; SQL
wants them in the order of `Keyword.rank` (`Keyword.InOrder`).

Only the texts of the words matter (`Outline.clausesAmong_eq`), and the clauses of two stretches of
words are those of both unless a keyword of two words reaches across (`clausesOf_append`).
-/

namespace Listing

open Text

namespace Keyword

/-- The keywords of the clauses behind FROM. -/
def clauses : List Keyword :=
  [«where», groupBy, having, window, orderBy, limit, offset, fetch]

/-- The position of a clause in a statement. Those that limit the rows share one. -/
def rank : Keyword → Nat
  | select => 0
  | «from» => 1
  | «where» => 2
  | groupBy => 3
  | having => 4
  | window => 5
  | orderBy => 6
  | limit | offset | fetch => 7

/-- Each clause at most once, and in the order that SQL wants. -/
structure InOrder (ks : List Keyword) : Prop where
  nodup : ks.Nodup
  ordered : ks.Pairwise fun k k' => k.rank ≤ k'.rank

/-- The keywords of the clauses that are new. -/
def newWhere (before : List Keyword) (predicate : Bool) : List Keyword :=
  if predicate ∧ .where ∉ before then [.where] else []

def newOrderBy (before : List Keyword) (sorted : Bool) : List Keyword :=
  if sorted ∧ .orderBy ∉ before then [.orderBy] else []

def newPaging (limited : Bool) : List Keyword := if limited then [.limit, .offset] else []

instance (ks : List Keyword) : Decidable (InOrder ks) :=
  decidable_of_iff (ks.Nodup ∧ ks.Pairwise fun k k' => k.rank ≤ k'.rank)
    ⟨fun h => ⟨h.1, h.2⟩, fun h => ⟨h.nodup, h.ordered⟩⟩

theorem two_le_rank {k : Keyword} (h : k ∈ clauses) : 2 ≤ k.rank := by
  revert h
  cases k <;> decide

theorem rank_le_seven (k : Keyword) : k.rank ≤ 7 := by
  cases k <;> decide

theorem mem_paging_iff {k : Keyword} : k ∈ paging ↔ k.rank = 7 := by
  cases k <;> decide

theorem eq_where_of_rank {k : Keyword} (h : k ∈ clauses) (hrank : k.rank ≤ 2) : k = .where := by
  revert h hrank
  cases k <;> decide

theorem inOrder_iff {ks : List Keyword} :
    InOrder ks ↔ ks.Pairwise fun k k' => k ≠ k' ∧ k.rank ≤ k'.rank := by
  constructor
  · intro h
    exact h.nodup.and h.ordered
  · intro h
    exact ⟨h.imp fun hk => hk.1, h.imp fun hk => hk.2⟩

end Keyword

namespace Outline

/-- The keywords of clauses among words, in the order they stand there. -/
def clausesAmong : List Word → List Keyword
  | [] => []
  | w :: ws => Keyword.clauses.filter (fun k => (placeAt? k (w :: ws)).isSome) ++ clausesAmong ws

/-- The words behind the first FROM of the first SELECT. -/
def clauseWords? (o : Outline) : Option (List Word) := do
  let select ← o.first? .select 0
  let table ← o.first? .from select.stop
  some (o.words.filter (table.stop ≤ ·.start))

/-- The clauses behind the first FROM of the first SELECT. -/
def clauses? (o : Outline) : Option (List Keyword) := o.clauseWords?.map clausesAmong

end Outline

/-! ## Texts of words -/

/-- Whether a text spells a name, in any case of its letters. -/
def spelled (t : List UInt8) (name : String) : Bool := sameIgnoringCase t (bytes name)

theorem spelled_unique {t : List UInt8} {a b : String} (ha : spelled t a = true)
    (hb : spelled t b = true) : spelled (bytes a) b = true := by
  simp only [spelled, sameIgnoringCase, beq_iff_eq] at ha hb ⊢
  rw [← ha, hb]

theorem Word.not_spelled {w : Word} {a name : String} (hw : w.spells a = true)
    (hnot : ¬w.spells name = true) : spelled (bytes name) a = false := by
  refine Bool.eq_false_iff.2 fun hspelled => hnot ?_
  simp only [Word.spells, spelled, sameIgnoringCase, beq_iff_eq] at hw hspelled ⊢
  rw [hw, hspelled]

/-- Whether texts start with the words of a keyword. -/
def startsWith (k : Keyword) : List (List UInt8) → Bool
  | [] => false
  | t :: ts =>
    match k.parts with
    | [only] => spelled t only
    | [former, latter] => spelled t former && ts.head?.any (spelled · latter)
    | _ => false

/-- The keywords of clauses among the texts of words. -/
def clausesOf : List (List UInt8) → List Keyword
  | [] => []
  | t :: ts => Keyword.clauses.filter (startsWith · (t :: ts)) ++ clausesOf ts

theorem Outline.isSome_placeAt? (k : Keyword) (ws : List Word) :
    (placeAt? k ws).isSome = startsWith k (ws.map (·.text)) := by
  cases ws with
  | nil => rfl
  | cons w ws =>
    simp only [placeAt?, List.map_cons, startsWith]
    obtain - | ⟨former, - | ⟨latter, - | -⟩⟩ := k.parts
    · rfl
    · simp only [Word.spells, spelled]
      by_cases hw : sameIgnoringCase w.text (bytes former) = true <;> simp [hw]
    · cases ws with
      | nil => simp
      | cons v ws =>
        simp only [Word.spells, spelled, List.map_cons, List.head?_cons, Option.any_some]
        by_cases hw : sameIgnoringCase w.text (bytes former) = true <;>
          by_cases hv : sameIgnoringCase v.text (bytes latter) = true <;> simp [hw, hv]
    · rfl

theorem Outline.clausesAmong_eq (ws : List Word) :
    clausesAmong ws = clausesOf (ws.map (·.text)) := by
  induction ws with
  | nil => rfl
  | cons w ws ih =>
    have hfilter : Keyword.clauses.filter (fun k => (placeAt? k (w :: ws)).isSome) =
        Keyword.clauses.filter (startsWith · (w.text :: ws.map (·.text))) := by
      refine List.filter_congr fun k _ => ?_
      rw [isSome_placeAt?, List.map_cons]
    rw [clausesAmong, List.map_cons, clausesOf, ih, hfilter]

/-! ## Stretches of words -/

/-- No keyword of two words reaches across the cut between two stretches of words. -/
def NoPair (xs ys : List (List UInt8)) : Prop :=
  ∀ x ∈ xs.getLast?, ∀ y ∈ ys.head?, spelled y "by" = true →
    spelled x "group" = false ∧ spelled x "order" = false

/-- Words that do not start with `BY`. -/
def NoBy (ys : List (List UInt8)) : Prop := ∀ y ∈ ys.head?, spelled y "by" = false

theorem NoBy.append {xs ys : List (List UInt8)} (hx : NoBy xs) (hy : NoBy ys) :
    NoBy (xs ++ ys) := by
  cases xs with
  | nil => exact hy
  | cons x xs => exact hx

theorem NoPair.of_head {xs ys : List (List UInt8)} (h : NoBy ys) : NoPair xs ys := by
  intro _ _ y hy hby
  rw [h y hy] at hby
  cases hby

theorem NoPair.of_last {xs ys : List (List UInt8)}
    (h : ∀ x ∈ xs.getLast?, spelled x "group" = false ∧ spelled x "order" = false) :
    NoPair xs ys :=
  fun x hx _ _ _ => h x hx

theorem startsWith_append {k : Keyword} {x : List UInt8} {xs ys : List (List UInt8)}
    (h : NoPair (x :: xs) ys) : startsWith k (x :: (xs ++ ys)) = startsWith k (x :: xs) := by
  cases xs with
  | cons y xs =>
    cases k <;> rfl
  | nil =>
    cases ys with
    | nil => rfl
    | cons y ys =>
      have hpair := h x rfl y rfl
      cases k <;>
        simp only [startsWith, Keyword.parts, List.nil_append, List.head?_cons, Option.any_some,
          List.head?_nil, Option.any_none, Bool.and_false]
      all_goals
        cases hby : spelled y "by" with
        | false => rw [Bool.and_false]
        | true => simp [hpair hby]

theorem clausesOf_append {xs ys : List (List UInt8)} (h : NoPair xs ys) :
    clausesOf (xs ++ ys) = clausesOf xs ++ clausesOf ys := by
  induction xs with
  | nil => rfl
  | cons x xs ih =>
    have htail : NoPair xs ys := by
      intro a ha
      refine h a ?_
      cases xs with
      | nil => cases ha
      | cons b xs => simpa [List.getLast?_cons_cons] using ha
    rw [List.cons_append, clausesOf, clausesOf, ih htail, List.append_assoc]
    congr 1
    exact List.filter_congr fun k _ => startsWith_append h

/-- The first word of a keyword. -/
def Keyword.opening (k : Keyword) : String := k.parts.headD ""

theorem spelled_opening {k : Keyword} {t : List UInt8} {ts : List (List UInt8)}
    (h : startsWith k (t :: ts) = true) : spelled t k.opening = true := by
  cases k <;> simp_all [startsWith, Keyword.parts, Keyword.opening]

theorem startsWith_unique {k k' : Keyword} {ts : List (List UInt8)} (hk : k ∈ Keyword.clauses)
    (hk' : k' ∈ Keyword.clauses) (h : startsWith k ts = true) (h' : startsWith k' ts = true) :
    k = k' := by
  cases ts with
  | nil => cases h
  | cons t ts =>
    have hall : ∀ k ∈ Keyword.clauses, ∀ k' ∈ Keyword.clauses,
        spelled (bytes k.opening) k'.opening = true → k = k' := by
      decide +kernel
    exact hall k hk k' hk' (spelled_unique (spelled_opening h) (spelled_opening h'))

/-- Words that start with a keyword list it once. -/
theorem clausesOf_of_startsWith {k : Keyword} {t : List UInt8} {ts : List (List UInt8)}
    (hk : k ∈ Keyword.clauses) (h : startsWith k (t :: ts) = true) :
    clausesOf (t :: ts) = k :: clausesOf ts := by
  have hfilter : Keyword.clauses.filter (startsWith · (t :: ts)) =
      Keyword.clauses.filter (· == k) := by
    refine List.filter_congr fun k' hk' => ?_
    by_cases heq : k' = k
    · rw [heq, h]
      simp
    · have hnot : startsWith k' (t :: ts) = false := by
        cases hk'' : startsWith k' (t :: ts) with
        | false => rfl
        | true => exact absurd (startsWith_unique hk' hk hk'' h) heq
      rw [hnot]
      simpa using heq
  have hself : Keyword.clauses.filter (· == k) = [k] := by
    revert hk
    cases k <;> decide
  rw [clausesOf, hfilter, hself, List.singleton_append]

/-- A text that is no word of a keyword. -/
def Mute (t : List UInt8) : Prop := ∀ k ∈ Keyword.clauses, ∀ a ∈ k.parts, spelled t a = false

instance (t : List UInt8) : Decidable (Mute t) :=
  inferInstanceAs (Decidable (∀ k ∈ Keyword.clauses, ∀ a ∈ k.parts, spelled t a = false))

theorem Keyword.opening_mem (k : Keyword) : k.opening ∈ k.parts := by
  cases k <;> decide

theorem Mute.not_by {t : List UInt8} (h : Mute t) : spelled t "by" = false :=
  h .orderBy (by decide) "by" (by decide)

theorem Mute.noBy {xs : List (List UInt8)} (h : ∀ x ∈ xs, Mute x) : NoBy xs :=
  fun x hx => (h x (List.mem_of_head? hx)).not_by

theorem clausesOf_mute {t : List UInt8} (h : Mute t) (ts : List (List UInt8)) :
    clausesOf (t :: ts) = clausesOf ts := by
  have hnil : Keyword.clauses.filter (startsWith · (t :: ts)) = [] := by
    refine List.filter_eq_nil_iff.2 fun k hk hstarts => ?_
    have hopening := spelled_opening hstarts
    rw [h k hk k.opening k.opening_mem] at hopening
    cases hopening
  rw [clausesOf, hnil, List.nil_append]

theorem clausesOf_all_mute {xs : List (List UInt8)} (h : ∀ x ∈ xs, Mute x)
    (ys : List (List UInt8)) : clausesOf (xs ++ ys) = clausesOf ys := by
  induction xs with
  | nil => rfl
  | cons x xs ih =>
    rw [List.cons_append, clausesOf_mute (h x List.mem_cons_self),
      ih fun a ha => h a (List.mem_cons_of_mem x ha)]

namespace Outline

variable {text : List UInt8} {k : Keyword} {a : String} {ws X Y : List Word} {w : Word}
  {p : Place} {position : Nat}

/-- A clause is listed where its keyword occurs. -/
theorem mem_clausesAmong : k ∈ clausesAmong ws ↔ k ∈ Keyword.clauses ∧ ∃ p, Occurs k ws p := by
  induction ws with
  | nil =>
    constructor
    · intro h
      cases h
    · rintro ⟨-, p, h⟩
      cases h with
      | single _ hws _ => simp at hws
      | pair _ hws _ _ => simp at hws
  | cons w ws ih =>
    rw [clausesAmong, List.mem_append, ih, List.mem_filter]
    constructor
    · rintro (⟨hk, hplace⟩ | ⟨hk, p, hoccurs⟩)
      · obtain ⟨p, hp⟩ := Option.isSome_iff_exists.1 hplace
        exact ⟨hk, p, occurs_of_placeAt? hp⟩
      · exact ⟨hk, p, hoccurs.cons w⟩
    · rintro ⟨hk, p, hoccurs⟩
      have hmem : p ∈ places [k] 0 (w :: ws) :=
        mem_places.2 ⟨Nat.zero_le _, k, List.mem_singleton.2 rfl, hoccurs⟩
      rw [places, if_pos (Nat.zero_le _), List.mem_append] at hmem
      rcases hmem with hmem | hmem
      · left
        obtain ⟨k', hk', hp⟩ := List.mem_filterMap.1 hmem
        obtain rfl := List.mem_singleton.1 hk'
        exact ⟨hk, Option.isSome_iff_exists.2 ⟨p, hp⟩⟩
      · obtain ⟨-, k', hk', hoccurs'⟩ := mem_places.1 hmem
        obtain rfl := List.mem_singleton.1 hk'
        exact .inr ⟨hk, p, hoccurs'⟩

/-! ## The first word of a name -/

theorem placeAt?_single (hparts : k.parts = [a]) (w : Word) (ws : List Word) :
    placeAt? k (w :: ws) = if w.spells a then some ⟨w.start, w.stop, w.before⟩ else none := by
  simp only [placeAt?, hparts]

theorem places_single_append (hparts : k.parts = [a])
    (h : ∀ x ∈ X, position ≤ x.start → x.spells a = false) :
    places [k] position (X ++ Y) = places [k] position Y := by
  induction X with
  | nil => rfl
  | cons x X ih =>
    have hhere : (if position ≤ x.start then
        [k].filterMap (placeAt? · (x :: (X ++ Y))) else []) = [] := by
      split
      · rename_i hle
        simp [placeAt?_single hparts, h x List.mem_cons_self hle]
      · rfl
    rw [List.cons_append, places, hhere, List.nil_append]
    exact ih fun v hv => h v (List.mem_cons_of_mem x hv)

theorem head?_places_single (hparts : k.parts = [a])
    (h : ∀ x ∈ X, position ≤ x.start → x.spells a = false) (hle : position ≤ w.start)
    (hw : w.spells a = true) :
    (places [k] position (X ++ w :: Y)).head? = some ⟨w.start, w.stop, w.before⟩ := by
  rw [places_single_append hparts h, places, if_pos hle]
  simp [placeAt?_single hparts, hw]

theorem exists_of_head?_places (hparts : k.parts = [a])
    (h : (places [k] position ws).head? = some p) :
    ∃ X w Y, ws = X ++ w :: Y ∧ p = ⟨w.start, w.stop, w.before⟩ ∧ position ≤ w.start ∧
      w.spells a = true ∧ ∀ x ∈ X, position ≤ x.start → x.spells a = false := by
  induction ws with
  | nil => cases h
  | cons v ws ih =>
    by_cases hv : position ≤ v.start ∧ v.spells a = true
    · rw [places, if_pos hv.1] at h
      simp only [List.filterMap_cons, placeAt?_single hparts, hv.2, ↓reduceIte, List.filterMap_nil,
        List.cons_append, List.head?_cons, Option.some.injEq] at h
      exact ⟨[], v, ws, rfl, h.symm, hv.1, hv.2, by simp⟩
    · have hnot : ∀ x ∈ [v], position ≤ x.start → x.spells a = false := by
        intro x hx hle
        obtain rfl := List.mem_singleton.1 hx
        simpa [hle] using hv
      have hskip := places_single_append (Y := ws) hparts hnot
      rw [List.singleton_append] at hskip
      rw [hskip] at h
      obtain ⟨X, w, Y, rfl, hp, hle, hw, hX⟩ := ih h
      refine ⟨v :: X, w, Y, rfl, hp, hle, hw, fun x hx hle' => ?_⟩
      rcases List.mem_cons.1 hx with rfl | hx
      · exact hnot x (List.mem_singleton.2 rfl) hle'
      · exact hX x hx hle'

/-! ## The words behind FROM -/

/-- Where the words of the clauses begin: a SELECT, a FROM behind it, and none of the two before. -/
structure Clauses (text : List UInt8) (A : List Word) (select : Word) (B : List Word)
    (table : Word) (C : List Word) : Prop where
  words : (Outline.of text).words = A ++ select :: (B ++ table :: C)
  noSelect : ∀ w ∈ A, w.spells "select" = false
  isSelect : select.spells "select" = true
  noFrom : ∀ w ∈ B, w.spells "from" = false
  isFrom : table.spells "from" = true

/-- The words behind a word are those that start behind its end. -/
theorem filter_stop_le {A C : List Word} {w : Word}
    (hwords : (Outline.of text).words = A ++ w :: C) :
    (Outline.of text).words.filter (w.stop ≤ ·.start) = C := by
  have hbounds := fun v (hv : v ∈ (Outline.of text).words) => word_bounds hv
  rw [hwords] at hbounds
  have hw := hbounds w (by simp)
  have hA : A.filter (w.stop ≤ ·.start) = [] := by
    refine List.filter_eq_nil_iff.2 fun v hv => ?_
    have := stop_le_of_mem_front hwords hv
    have := hbounds v (List.mem_append_left _ hv)
    simp only [decide_eq_true_eq]
    omega
  have hC : C.filter (w.stop ≤ ·.start) = C := by
    refine List.filter_eq_self.2 fun v hv => decide_eq_true ?_
    have := le_before_of_mem_back hwords hv
    have := hbounds v (by simp [hv])
    omega
  have hself : ¬w.stop ≤ w.start := by omega
  rw [hwords, List.filter_append, List.filter_cons, hA, hC]
  simp [hself]

theorem Clauses.behind {A B C : List Word} {select table : Word}
    (h : Clauses text A select B table C) :
    (Outline.of text).words.filter (table.stop ≤ ·.start) = C := by
  have hsplit : (Outline.of text).words = (A ++ select :: B) ++ table :: C := by
    rw [h.words]
    simp
  exact filter_stop_le hsplit

theorem Clauses.first_select {A B C : List Word} {select table : Word}
    (h : Clauses text A select B table C) :
    (Outline.of text).first? .select 0 = some ⟨select.start, select.stop, select.before⟩ := by
  rw [first?, h.words]
  exact head?_places_single rfl (fun x hx _ => h.noSelect x hx) (Nat.zero_le _) h.isSelect

theorem Clauses.first_from {A B C : List Word} {select table : Word}
    (h : Clauses text A select B table C) :
    (Outline.of text).first? .from select.stop = some ⟨table.start, table.stop, table.before⟩ := by
  have hle := le_before_of_mem_back h.words (v := table) (by simp)
  have hmem : table ∈ (Outline.of text).words := by simp [h.words]
  have htable := word_bounds hmem
  rw [first?, places_behind_word h.words]
  exact head?_places_single rfl (fun x hx _ => h.noFrom x hx) (by omega) h.isFrom

theorem Clauses.clauseWords?_eq {A B C : List Word} {select table : Word}
    (h : Clauses text A select B table C) : (Outline.of text).clauseWords? = some C := by
  rw [clauseWords?, h.first_select]
  simp only [Option.bind_eq_bind, Option.bind_some, h.first_from, h.behind]

/-- The clauses behind FROM, told from the texts of the words. -/
theorem clauses?_of_texts {A B C : List (List UInt8)} {s t : List UInt8}
    (h : (Outline.of text).words.map (·.text) = A ++ s :: (B ++ t :: C))
    (hA : ∀ x ∈ A, spelled x "select" = false) (hs : spelled s "select" = true)
    (hB : ∀ x ∈ B, spelled x "from" = false) (ht : spelled t "from" = true) :
    (Outline.of text).clauses? = some (clausesOf C) := by
  obtain ⟨A', R, hwords, rfl, hR⟩ := List.map_eq_append_iff.1 h
  obtain ⟨select, R', rfl, rfl, hR'⟩ := List.map_eq_cons_iff.1 hR
  obtain ⟨B', R'', rfl, rfl, hR''⟩ := List.map_eq_append_iff.1 hR'
  obtain ⟨table, C', rfl, rfl, rfl⟩ := List.map_eq_cons_iff.1 hR''
  have hclauses : Clauses text A' select B' table C' :=
    ⟨hwords, fun w hw => hA w.text (List.mem_map_of_mem hw), hs,
      fun w hw => hB w.text (List.mem_map_of_mem hw), ht⟩
  rw [clauses?, hclauses.clauseWords?_eq, Option.map_some, clausesAmong_eq]

theorem exists_clauses {C : List Word} (h : (Outline.of text).clauseWords? = some C) :
    ∃ A select B table, Clauses text A select B table C := by
  simp only [clauseWords?, Option.bind_eq_bind, Option.bind_eq_some_iff, Option.some.injEq] at h
  obtain ⟨p, hp, q, hq, hC⟩ := h
  obtain ⟨A, select, R, hwords, rfl, -, hselect, hA⟩ := exists_of_head?_places rfl hp
  obtain ⟨X, table, Y, hwords', rfl, hle, htable, hX⟩ := exists_of_head?_places rfl hq
  have hbounds := fun w (hw : w ∈ (Outline.of text).words) => word_bounds hw
  dsimp only at hle hX hC
  -- FROM stands behind SELECT, so it is among the words that follow it
  obtain ⟨B, rfl, rfl⟩ : ∃ B, X = A ++ select :: B ∧ R = B ++ table :: Y := by
    have hordered := @stop_le_of_mem_front text select table A R hwords
    rw [hwords] at hwords' hbounds
    rcases List.append_eq_append_iff.1 hwords' with ⟨t, rfl, ht⟩ | ⟨t, rfl, ht⟩
    · cases t with
      | nil =>
        obtain ⟨rfl, -⟩ := List.cons_eq_cons.1 ht
        have := hbounds select (by simp)
        omega
      | cons v B =>
        obtain ⟨rfl, hB⟩ := List.cons_eq_cons.1 ht
        exact ⟨B, rfl, hB⟩
    · cases t with
      | nil =>
        obtain ⟨rfl, -⟩ := List.cons_eq_cons.1 ht
        have := hbounds table (by simp)
        omega
      | cons v B =>
        obtain ⟨rfl, -⟩ := List.cons_eq_cons.1 ht
        have := hordered (by simp)
        have := hbounds select (by simp)
        have := hbounds table (by simp)
        omega
  have hB : ∀ w ∈ B, w.spells "from" = false := by
    intro w hw
    refine hX w (by simp [hw]) ?_
    have := le_before_of_mem_back hwords (v := w) (by simp [hw])
    rw [hwords] at hbounds
    have := hbounds w (by simp [hw])
    omega
  have hclauses : Clauses text A select B table Y :=
    ⟨hwords, fun w hw => hA w hw (Nat.zero_le _), hselect, hB, htable⟩
  obtain rfl : Y = C := hclauses.behind.symm.trans hC
  exact ⟨A, select, B, table, hclauses⟩

end Outline

end Listing
