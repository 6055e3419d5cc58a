import Listing.Proofs.Clauses
import Listing.Proofs.Sites
import Listing.Proofs.Words

/-!
# Clauses of a base statement

The clauses that a base statement has behind FROM, stretch by stretch, if it has them in order
(`Site.Arranged`). The stretches are those between two joints; the clauses of two in a row are those
of both unless a keyword reaches across (`Outline.clausesBetween_append`).

A WHERE is the first of all clauses and comes once (`Site.Arranged.where_first`), no other clause
starts in its predicate (`Site.Arranged.clauses_predicate`), and all that ends the predicate stands
behind it (`Site.Arranged.place_behind_where`).
-/

namespace Listing

open Text

/-! ## Clauses of the base statement -/

namespace Outline

/-- The clauses that start between two positions. -/
def clausesBetween (text : List UInt8) (a b : Nat) : List Keyword :=
  clausesOf (textsBetween text a b)

variable {text : List UInt8} {a b c : Nat} {k : Keyword} {p : Place} {w : Word}
  {ks : List Keyword}

theorem clausesBetween_append (hb : Joint text b) (hab : a ≤ b) (hbc : b ≤ c)
    (h : NoPair (textsBetween text a b) (textsBetween text b c)) :
    clausesBetween text a c = clausesBetween text a b ++ clausesBetween text b c := by
  rw [clausesBetween, textsBetween_append hb hab hbc, clausesOf_append h]
  rfl

theorem mem_clausesBetween_iff :
    k ∈ clausesBetween text a b ↔
      k ∈ Keyword.clauses ∧ ∃ p, Occurs k ((Outline.of text).wordsBetween a b) p := by
  rw [clausesBetween, textsBetween, ← clausesAmong_eq, mem_clausesAmong]

/-- A clause between two joints has its keyword there. -/
theorem occurs_of_mem_clausesBetween (ha : Joint text a) (hb : Joint text b) (hab : a ≤ b)
    (hend : b ≤ (Outline.of text).codeEnd) (h : k ∈ clausesBetween text a b) :
    k ∈ Keyword.clauses ∧ ∃ p, Occurs k (Outline.of text).words p ∧ a ≤ p.start ∧
      p.before ≤ p.start ∧ p.start < p.stop ∧ p.stop ≤ b := by
  obtain ⟨hk, p, hoccurs⟩ := mem_clausesBetween_iff.1 h
  have hwords : (Outline.of text).words = (Outline.of text).wordsBetween 0 a ++
      ((Outline.of text).wordsBetween a b ++
        (Outline.of text).wordsBetween b (Outline.of text).codeEnd) := by
    rw [← wordsBetween_append hb hab hend, ← wordsBetween_append ha (Nat.zero_le a)
      (Nat.le_trans hab hend), wordsBetween_all]
  have hall : Occurs k (Outline.of text).words p := by
    rw [hwords]
    cases hoccurs with
    | @single A B w only hparts hws hw =>
      exact .single hparts (by rw [hws, List.append_assoc, ← List.append_assoc]; rfl) hw
    | @pair A B w v former latter hparts hws hw hv =>
      exact .pair hparts (by rw [hws, List.append_assoc, ← List.append_assoc]; rfl) hw hv
  have hmem : p ∈ places [k] 0 (Outline.of text).words :=
    mem_places.2 ⟨Nat.zero_le _, k, List.mem_singleton.2 rfl, hall⟩
  have hbounds := place_bounds hmem
  obtain ⟨w, hw, v, hv, rfl, -⟩ := hoccurs.words
  exact ⟨hk, _, hall, (mem_wordsBetween.1 hw).2.1, hbounds.1, hbounds.2.1,
    (mem_wordsBetween.1 hv).2.2⟩

/-- A keyword between two positions is one of the words there. -/
theorem Occurs.between (h : Occurs k (Outline.of text).words p) (ha : a ≤ p.start)
    (hb : p.stop ≤ b) : Occurs k ((Outline.of text).wordsBetween a b) p := by
  cases h with
  | @single A B w only hparts hws hw =>
    have hin : decide (a ≤ w.start ∧ w.stop ≤ b) = true := decide_eq_true ⟨ha, hb⟩
    refine .single (A := A.filter fun w => a ≤ w.start ∧ w.stop ≤ b)
      (B := B.filter fun w => a ≤ w.start ∧ w.stop ≤ b) hparts ?_ hw
    rw [wordsBetween, hws, List.filter_append, List.filter_cons, if_pos hin]
  | @pair A B w v former latter hparts hws hw hv =>
    have hstop : w.stop ≤ v.before := le_before_of_mem_back hws List.mem_cons_self
    have hwMem : w ∈ (Outline.of text).words := by simp [hws]
    have hvMem : v ∈ (Outline.of text).words := by simp [hws]
    have hwb := word_bounds hwMem
    have hvb := word_bounds hvMem
    dsimp only at ha hb
    have hin : decide (a ≤ w.start ∧ w.stop ≤ b) = true := decide_eq_true ⟨ha, by omega⟩
    have hin' : decide (a ≤ v.start ∧ v.stop ≤ b) = true := decide_eq_true ⟨by omega, hb⟩
    refine .pair (A := A.filter fun w => a ≤ w.start ∧ w.stop ≤ b)
      (B := B.filter fun w => a ≤ w.start ∧ w.stop ≤ b) hparts ?_ hw hv
    rw [wordsBetween, hws, List.filter_append, List.filter_cons, if_pos hin, List.filter_cons,
      if_pos hin']

/-- It starts a clause there if it is the keyword of one. -/
theorem mem_clausesBetween (hk : k ∈ Keyword.clauses) (h : Occurs k (Outline.of text).words p)
    (ha : a ≤ p.start) (hb : p.stop ≤ b) : k ∈ clausesBetween text a b :=
  mem_clausesBetween_iff.2 ⟨hk, p, h.between ha hb⟩

/-- The first word behind the end of the code in front of a word is the word. -/
theorem head?_wordsBetween_before (hw : w ∈ (Outline.of text).words) (c : Nat) :
    ∀ v ∈ ((Outline.of text).wordsBetween w.before c).head?, v = w := by
  intro v hv
  obtain ⟨hvmem, hle, hvc, hbehind⟩ := head?_wordsBetween_spec (Option.mem_def.1 hv)
  have hvbounds := word_bounds hvmem
  have hwbounds := word_bounds hw
  rcases word_trichotomy hvmem hw with heq | hlt | hlt
  · exact heq
  · omega
  · -- then `w` itself would come first
    rcases hbehind w hw hwbounds.1 (by omega) with heq | hlt'
    · exact heq.symm
    · omega

theorem head?_textsBetween_before (hw : w ∈ (Outline.of text).words) (c : Nat) :
    ∀ t ∈ (textsBetween text w.before c).head?, t = w.text := by
  intro t ht
  rw [textsBetween, List.head?_map] at ht
  obtain ⟨v, hv, rfl⟩ := Option.map_eq_some_iff.1 ht
  rw [head?_wordsBetween_before hw c v hv]

theorem joint_clauseEnd (hbalanced : Balanced text) (ks : List Keyword) (a : Nat) :
    Joint text (Site.clauseEnd text ks a) := by
  unfold Site.clauseEnd
  cases hp : (Outline.of text).earliest? ks a with
  | none => exact joint_codeEnd hbalanced
  | some p =>
    obtain ⟨w, hw, v, -, rfl, -⟩ := place_words (List.mem_of_head? hp)
    exact joint_before hw

/-- Where a clause ends, a keyword starts, or there are no more words. -/
theorem head?_textsBetween_clauseEnd (ks : List Keyword) (a c : Nat) :
    ∀ t ∈ (textsBetween text (Site.clauseEnd text ks a) c).head?,
      ∃ k ∈ ks, spelled t k.opening = true := by
  intro t ht
  rw [textsBetween, List.head?_map] at ht
  obtain ⟨v, hv, rfl⟩ := Option.map_eq_some_iff.1 ht
  unfold Site.clauseEnd at hv
  cases hp : (Outline.of text).earliest? ks a with
  | none =>
    rw [hp] at hv
    obtain ⟨hvmem, hvb⟩ := mem_wordsBetween.1 (List.mem_of_head? hv)
    have := word_bounds hvmem
    simp only [Option.map_none, Option.getD_none] at hvb
    omega
  | some p =>
    rw [hp] at hv
    obtain ⟨-, k, hk, hoccurs⟩ := mem_places.1 (List.mem_of_head? hp)
    obtain ⟨w, hw, u, -, rfl, ⟨o, ho, hspells⟩, -⟩ := hoccurs.words
    obtain rfl := head?_wordsBetween_before hw c v hv
    refine ⟨k, hk, ?_⟩
    have hopening : k.opening = o := by
      rw [Keyword.opening, List.headD_eq_head?_getD, ho]
      rfl
    rw [hopening]
    exact hspells

end Outline

theorem not_by_of_opening {t : List UInt8} {k : Keyword} (hk : k ∈ Keyword.clauses)
    (h : spelled t k.opening = true) : spelled t "by" = false := by
  have hall : ∀ k ∈ Keyword.clauses, spelled (bytes k.opening) "by" = false := by
    decide +kernel
  cases hby : spelled t "by" with
  | false => rfl
  | true =>
    have hsame := spelled_unique h hby
    rw [hall k hk] at hsame
    cases hsame

theorem clausesOf_by {t : List UInt8} (h : spelled t "by" = true) (ts : List (List UInt8)) :
    clausesOf (t :: ts) = clausesOf ts := by
  have hnil : Keyword.clauses.filter (startsWith · (t :: ts)) = [] := by
    refine List.filter_eq_nil_iff.2 fun k hk hstarts => ?_
    have hnot := not_by_of_opening hk (spelled_opening hstarts)
    rw [h] at hnot
    cases hnot
  rw [clausesOf, hnil, List.nil_append]

namespace Site

open Outline

/-- Where a clause ends, no word BY stands. -/
theorem noBy_clauseEnd {ks : List Keyword} (hks : ∀ k ∈ ks, k ∈ Keyword.clauses)
    (text : List UInt8) (a p : Nat) : NoBy (textsBetween text (clauseEnd text ks a) p) := by
  intro t ht
  obtain ⟨k, hk, hspells⟩ := head?_textsBetween_clauseEnd _ _ _ t ht
  exact not_by_of_opening (hks k hk) hspells

/-- The base statement of a composition, with its clauses in order. -/
structure Arranged (countAlias : String) (text : List UInt8) (site : Site)
    (before : List Keyword) : Prop where
  balanced : Balanced text
  located : locate countAlias text = .ok site
  clauses : (Outline.of text).clauses? = some before
  inOrder : Keyword.InOrder before

variable {countAlias : String} {text : List UInt8} {site : Site} {before : List Keyword}
  {A B C : List Word} {select table w : Word}

theorem joint_projection (h : locate countAlias text = .ok site) : Joint text site.projection := by
  obtain ⟨place, hplace, -⟩ := locate_ok h
  obtain ⟨w, hw, hprojection, -⟩ := exists_projection_word h hplace
  rw [hprojection]
  exact joint_stop hw

theorem scope_eq (h : locate countAlias text = .ok site) (hc : Clauses text A select B table C) :
    site.scope = table.stop := by
  obtain ⟨place, hplace, -, -, hscope, -⟩ := locate_ok h
  rw [hc.first_select] at hplace
  obtain rfl := Option.some.inj hplace
  rw [hscope, hc.first_from]
  rfl

theorem wordsBetween_scope (h : locate countAlias text = .ok site)
    (hc : Clauses text A select B table C) :
    (Outline.of text).wordsBetween site.scope (Outline.of text).codeEnd = C := by
  rw [scope_eq h hc, ← hc.behind, wordsBetween]
  refine List.filter_congr fun v hv => ?_
  have := word_bounds hv
  simp only [decide_eq_decide]
  omega

namespace Arranged

variable (h : Arranged countAlias text site before)

include h

theorem exists_clauses : ∃ A select B table C, Clauses text A select B table C ∧
    before = clausesAmong C := by
  have hclauses := h.clauses
  rw [clauses?, Option.map_eq_some_iff] at hclauses
  obtain ⟨C, hC, rfl⟩ := hclauses
  obtain ⟨A, select, B, table, hc⟩ := Outline.exists_clauses hC
  exact ⟨A, select, B, table, C, hc, rfl⟩

theorem before_eq : before = clausesBetween text site.scope (Outline.of text).codeEnd := by
  obtain ⟨A, select, B, table, C, hc, rfl⟩ := h.exists_clauses
  rw [clausesBetween, textsBetween, wordsBetween_scope h.located hc, clausesAmong_eq]

theorem joint_scope : Joint text site.scope := by
  obtain ⟨w, hw, hscope⟩ := exists_scope_word h.located
  rw [hscope]
  exact joint_stop hw

theorem scope_le : site.scope ≤ (Outline.of text).codeEnd := by
  obtain ⟨w, hw, hscope⟩ := exists_scope_word h.located
  rw [hscope]
  exact (word_bounds hw).2.2

theorem scope_le_clauseEnd (ks : List Keyword) :
    site.scope ≤ clauseEnd text ks site.scope := by
  obtain ⟨w, hw, hscope⟩ := exists_scope_word h.located
  rw [hscope]
  exact le_clauseEnd hw ks

theorem mem_clauses {k : Keyword} (hk : k ∈ before) : k ∈ Keyword.clauses := by
  rw [h.before_eq, mem_clausesBetween_iff] at hk
  exact hk.1

/-- A clause is there if its keyword occurs behind FROM. -/
theorem mem_before_iff {k : Keyword} (hk : k ∈ Keyword.clauses) :
    k ∈ before ↔ places [k] site.scope (Outline.of text).words ≠ [] := by
  rw [h.before_eq]
  constructor
  · intro hmem
    obtain ⟨-, p, hoccurs, hle, -⟩ := occurs_of_mem_clausesBetween h.joint_scope
      (joint_codeEnd h.balanced) h.scope_le (Nat.le_refl _) hmem
    exact List.ne_nil_of_mem (mem_places.2 ⟨hle, k, List.mem_singleton.2 rfl, hoccurs⟩)
  · intro hne
    obtain ⟨p, hp⟩ := List.exists_mem_of_ne_nil _ hne
    have hbounds := place_bounds hp
    obtain ⟨hle, k', hk', hoccurs⟩ := mem_places.1 hp
    obtain rfl := List.mem_singleton.1 hk'
    exact mem_clausesBetween hk hoccurs hle hbounds.2.2.1

theorem where_mem_iff : .where ∈ before ↔ site.outline.first? .where site.scope ≠ none := by
  rw [h.mem_before_iff (by decide), outline_eq h.located, first?, ne_eq, ne_eq,
    List.head?_eq_none_iff]

theorem orderBy_mem_iff : .orderBy ∈ before ↔ site.outline.last? .orderBy site.scope ≠ none := by
  rw [h.mem_before_iff (by decide), outline_eq h.located, last?, ne_eq, ne_eq,
    List.getLast?_eq_none_iff]

theorem paging_mem_iff : (∃ k ∈ Keyword.paging, k ∈ before) ↔ site.paging?.isSome = true := by
  rw [paging?, outline_eq h.located, earliest?]
  constructor
  · rintro ⟨k, hk, hmem⟩
    have hclauses := h.mem_clauses hmem
    rw [h.mem_before_iff hclauses] at hmem
    obtain ⟨p, hp⟩ := List.exists_mem_of_ne_nil _ hmem
    obtain ⟨hle, k', hk', hoccurs⟩ := mem_places.1 hp
    obtain rfl := List.mem_singleton.1 hk'
    have hmem' : p ∈ places Keyword.paging site.scope (Outline.of text).words :=
      mem_places.2 ⟨hle, _, hk, hoccurs⟩
    cases hhead : (places Keyword.paging site.scope (Outline.of text).words).head? with
    | none =>
      rw [List.head?_eq_none_iff] at hhead
      rw [hhead] at hmem'
      cases hmem'
    | some q => rfl
  · intro hsome
    obtain ⟨p, hp⟩ := Option.isSome_iff_exists.1 hsome
    obtain ⟨hle, k, hk, hoccurs⟩ := mem_places.1 (List.mem_of_head? hp)
    have hclauses : k ∈ Keyword.clauses := by
      revert hk
      cases k <;> decide
    refine ⟨k, hk, (h.mem_before_iff hclauses).2 (List.ne_nil_of_mem (a := p)
      (mem_places.2 ⟨hle, k, List.mem_singleton.2 rfl, hoccurs⟩))⟩

/-- The clauses behind FROM come in two stretches wherever the second starts no keyword in its
middle. -/
theorem before_split {b : Nat} (hb : Joint text b) (hle : site.scope ≤ b)
    (hend : b ≤ (Outline.of text).codeEnd)
    (hhead : NoBy (textsBetween text b (Outline.of text).codeEnd)) :
    before = clausesBetween text site.scope b ++
      clausesBetween text b (Outline.of text).codeEnd := by
  rw [h.before_eq]
  exact clausesBetween_append hb hle hend (.of_head hhead)

/-- The base has its WHERE as the first of its clauses, and only once. -/
theorem where_first (hw : w ∈ (Outline.of text).words) (hwhere : w.spells "where" = true)
    (hscope : site.scope ≤ w.start) :
    clausesBetween text site.scope w.before = [] ∧
      clausesBetween text site.scope w.stop = [.where] ∧
      .where ∉ clausesBetween text w.stop (Outline.of text).codeEnd := by
  have hbounds := word_bounds hw
  have hjoint := joint_before hw
  have hle : site.scope ≤ w.before := by
    obtain ⟨v, hv, hv'⟩ := exists_scope_word h.located
    rw [hv'] at hscope ⊢
    exact stop_le_before hv hw hscope
  have hnot : spelled w.text "by" = false := not_by_of_opening (k := .where) (by decide) hwhere
  have hhead (c : Nat) : NoBy (textsBetween text w.before c) := by
    intro t ht
    rw [head?_textsBetween_before hw c t ht]
    exact hnot
  have hsplit := h.before_split hjoint hle (by omega) (hhead _)
  have hwords : clausesBetween text w.before (Outline.of text).codeEnd =
      .where :: clausesBetween text w.stop (Outline.of text).codeEnd := by
    rw [clausesBetween, textsBetween_before hw]
    exact clausesOf_of_startsWith (by decide) hwhere
  have hone : clausesBetween text w.before w.stop = [.where] := by
    rw [clausesBetween, textsBetween, wordsBetween_word hw]
    show clausesOf [w.text] = .where :: clausesOf []
    exact clausesOf_of_startsWith (by decide) hwhere
  rw [hwords] at hsplit
  have horder := Keyword.inOrder_iff.1 h.inOrder
  rw [hsplit] at horder
  obtain ⟨-, hback, hcross⟩ := List.pairwise_append.1 horder
  have hnil : clausesBetween text site.scope w.before = [] := by
    refine List.eq_nil_iff_forall_not_mem.2 fun k hk => ?_
    obtain ⟨hne, hrank⟩ := hcross k hk .where List.mem_cons_self
    have hmem : k ∈ before := by
      rw [hsplit]
      exact List.mem_append_left _ hk
    exact hne (Keyword.eq_where_of_rank (h.mem_clauses hmem) hrank)
  refine ⟨hnil, ?_, fun hmem => ((List.pairwise_cons.1 hback).1 _ hmem).1 rfl⟩
  rw [clausesBetween_append hjoint hle (by omega) (.of_head (hhead _)), hnil, hone]
  rfl

/-- No clause starts between the start of a predicate and its end. -/
theorem clauses_predicate {b : Nat} (hb : Joint text b)
    (hle : b ≤ clauseEnd text Keyword.afterWhere b)
    (hnot : .where ∉ clausesBetween text b (clauseEnd text Keyword.afterWhere b)) :
    clausesBetween text b (clauseEnd text Keyword.afterWhere b) = [] := by
  refine List.eq_nil_iff_forall_not_mem.2 fun k hk => ?_
  have hend := joint_clauseEnd h.balanced Keyword.afterWhere b
  obtain ⟨hclauses, p, hoccurs, hstart, hbefore, hlt, hstop⟩ :=
    occurs_of_mem_clausesBetween hb hend hle (clauseEnd_le_codeEnd text _ _) hk
  by_cases hwhere : k = .where
  · exact hnot (hwhere ▸ hk)
  · have hafter : k ∈ Keyword.afterWhere := by
      revert hclauses hwhere
      cases k <;> decide
    have hplace : p ∈ places Keyword.afterWhere b (Outline.of text).words :=
      mem_places.2 ⟨hstart, k, hafter, hoccurs⟩
    have := clauseEnd_le hplace
    omega

/-- What ends a predicate stands behind the WHERE of the base, if it has one. -/
theorem place_behind_where (hw : w ∈ (Outline.of text).words) (hwhere : w.spells "where" = true)
    (hscope : site.scope ≤ w.start) {p : Place}
    (hp : p ∈ places Keyword.afterWhere site.scope (Outline.of text).words) :
    w.stop ≤ p.start := by
  obtain ⟨hnil, -, -⟩ := h.where_first hw hwhere hscope
  have hwb := word_bounds hw
  obtain ⟨hle, k, hk, hoccurs⟩ := mem_places.1 hp
  have hclauses : k ∈ Keyword.clauses ∧ ∀ a ∈ k.parts, spelled (bytes a) "where" = false := by
    revert hk
    cases k <;> decide
  have hne {u : Word} {a : String} (ha : a ∈ k.parts) (hu : u.spells a = true) : u ≠ w := by
    rintro rfl
    have hsame := Word.spells_unique hu hwhere
    rw [← spelled, hclauses.2 a ha] at hsame
    cases hsame
  rcases Nat.lt_or_ge p.start w.stop with hlt | hge
  · -- the keyword would be a clause in front of WHERE
    have hstop : p.stop ≤ w.before := by
      cases hoccurs with
      | @single A B u a hparts hws hu =>
        have humem : u ∈ (Outline.of text).words := by simp [hws]
        have hub := word_bounds humem
        rcases word_trichotomy humem hw with heq | hbefore | hbehind
        · exact absurd heq (hne (by simp [hparts]) hu)
        · exact hbefore
        · dsimp only at hlt
          omega
      | @pair A B u v a b hparts hws hu hv =>
        have humem : u ∈ (Outline.of text).words := by simp [hws]
        have hvmem : v ∈ (Outline.of text).words := by simp [hws]
        have hub := word_bounds humem
        rcases word_trichotomy humem hw with heq | hbefore | hbehind
        · exact absurd heq (hne (by simp [hparts]) hu)
        · rcases word_trichotomy hvmem hw with heq | hbefore' | hbehind
          · exact absurd heq (hne (by simp [hparts]) hv)
          · exact hbefore'
          · exact absurd hbehind (not_between hws hw hbefore)
        · dsimp only at hlt
          omega
    have hmem := mem_clausesBetween hclauses.1 hoccurs hle hstop
    rw [hnil] at hmem
    cases hmem
  · exact hge

end Arranged

/-! ## Clauses in front of edits -/

open Edit

/-- Edits behind a joint, which leave all clauses in front of it alone. -/
structure Behind (text : List UInt8) (site : Site) (es : List Edit) (p : Nat) : Prop where
  joint : Joint text p
  scope_le : site.scope ≤ p
  le_codeEnd : p ≤ (Outline.of text).codeEnd
  edits : ∀ e ∈ es, p ≤ e.position ∧ e.Parted
  noBy : NoBy (topWords (weave (text.take (Outline.of text).codeEnd) p es))
  noBy_base : NoBy (textsBetween text p (Outline.of text).codeEnd)

variable {es : List Edit} {p m : Nat}

/-- The clauses from a joint on, in front of the edits. -/
theorem Behind.clausesOf_weave (hb : Behind text site es p) (hm : Joint text m) (hle : m ≤ p) :
    clausesOf (topWords (weave (text.take (Outline.of text).codeEnd) m es)) =
        clausesBetween text m p ++
          clausesOf (topWords (weave (text.take (Outline.of text).codeEnd) p es)) ∧
      (NoBy (textsBetween text m p) →
        NoBy (topWords (weave (text.take (Outline.of text).codeEnd) m es))) := by
  rw [topWords_weave_split hm hb.joint hle hb.le_codeEnd hb.edits]
  exact ⟨clausesOf_append (.of_head hb.noBy), fun h => h.append hb.noBy⟩

/-- One more edit, in front of the others. -/
theorem Behind.edits_cons (hb : Behind text site es p) (hle : m ≤ p) {e : Edit}
    (he : m ≤ e.position) (hparted : e.Parted) :
    ∀ a ∈ e :: es, m ≤ a.position ∧ a.Parted := by
  intro a ha
  rcases List.mem_cons.1 ha with rfl | ha
  · exact ⟨he, hparted⟩
  · exact ⟨Nat.le_trans hle (hb.edits a ha).1, (hb.edits a ha).2⟩

end Site

end Listing
