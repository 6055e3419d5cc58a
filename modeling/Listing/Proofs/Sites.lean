import Listing.Proofs.Places
import Listing.Statement.Compose

/-!
# Sites and their edits

Where the edits of a site go. Each of them goes to a cut of the base statement within its code
and none in front of the count column (`Site.fits_predicateEdits`, `Site.fits_orderEdits`), and the
sort columns go either behind the whole predicate or in front of it, never into it
(`Site.orderEdits_apart`). So the edits are made in one of two orders (`Site.sort_edits`).
-/

namespace Listing

open Text

namespace Outline

variable {text : List UInt8} {ks : List Keyword} {position : Nat} {p q : Place} {w : Word}

/-- A place reaches from a word to the same or a later one. -/
theorem place_words (hp : p ∈ places ks position (Outline.of text).words) :
    ∃ w ∈ (Outline.of text).words, ∃ v ∈ (Outline.of text).words,
      p = ⟨w.start, v.stop, w.before⟩ ∧ position ≤ w.start ∧ w.start ≤ v.start := by
  obtain ⟨hle, k, -, hoccurs⟩ := mem_places.1 hp
  obtain ⟨w, hw, v, hv, rfl, -, -, hvw⟩ := hoccurs.words
  refine ⟨w, hw, v, hv, rfl, hle, ?_⟩
  rcases hvw with rfl | ⟨A, B, hws⟩
  · exact Nat.le_refl _
  · have hstop := le_before_of_mem_back hws List.mem_cons_self
    have hwb := word_bounds hw
    have hvb := word_bounds hv
    omega

/-- A place of ORDER BY reaches over its two words. -/
theorem place_orderBy (hp : p ∈ places [.orderBy] position (Outline.of text).words) :
    ∃ A o b B, (Outline.of text).words = A ++ o :: b :: B ∧ o.spells "order" = true ∧
      b.spells "by" = true ∧ p = ⟨o.start, b.stop, o.before⟩ ∧ position ≤ o.start := by
  obtain ⟨hle, k, hk, hoccurs⟩ := mem_places.1 hp
  obtain rfl := List.mem_singleton.1 hk
  cases hoccurs with
  | single hparts => cases hparts
  | @pair A B o b former latter hparts hws ho hb =>
    cases hparts
    exact ⟨A, o, b, B, hws, ho, hb, rfl, hle⟩

theorem place_bounds (hp : p ∈ places ks position (Outline.of text).words) :
    p.before ≤ p.start ∧ p.start < p.stop ∧ p.stop ≤ (Outline.of text).codeEnd ∧
      position ≤ p.start := by
  obtain ⟨w, hw, v, hv, rfl, hle, hwv⟩ := place_words hp
  have hwb := word_bounds hw
  have hvb := word_bounds hv
  dsimp only
  omega

theorem cut_place (hp : p ∈ places ks position (Outline.of text).words) :
    Cut text p.before 0 ∧ Cut text p.stop 0 := by
  obtain ⟨w, hw, v, hv, rfl, -, -⟩ := place_words hp
  exact ⟨cut_before hw, cut_stop hv⟩

/-- A place behind a word is behind the code that ends with the word. -/
theorem stop_le_place (hw : w ∈ (Outline.of text).words)
    (hp : p ∈ places ks position (Outline.of text).words) (hle : w.stop ≤ p.start) :
    w.stop ≤ p.before := by
  obtain ⟨v, hv, u, -, rfl, -, -⟩ := place_words hp
  exact stop_le_before hw hv hle

theorem earliest?_le (hp : (Outline.of text).earliest? ks position = some p)
    (hq : q ∈ places ks position (Outline.of text).words) : p.before ≤ q.before :=
  before_le_of_head? (words_ordered text)
    (fun w hw => by have := word_bounds hw; omega) hp hq

end Outline

namespace Site

open Outline

/-- The stretch of the base statement that is its own predicate, from the first character that is no
blank to the end of the clause, if there is any. -/
def body? (site : Site) : Option (Nat × Nat) :=
  match site.outline.first? .where site.scope with
  | none => none
  | some present =>
    let start := present.stop + blankRun (site.text.drop present.stop)
    let stop := site.predicateEnd present.stop
    if start < stop then some (start, stop) else none

variable {countAlias : String} {text : List UInt8} {site : Site}

theorem locate_ok (h : locate countAlias text = .ok site) :
    ∃ select, (Outline.of text).first? .select 0 = some select ∧
      site.text = text ∧ site.outline = Outline.of text ∧
      site.scope =
        (((Outline.of text).first? .from select.stop).map (·.stop)).getD select.stop ∧
      site.projection =
        (((wordBehind? (Outline.of text) select.stop).filter (·.spells "all")).map
          (·.stop)).getD select.stop ∧
      ((Outline.of text).wordsBetween select.stop site.scope).any (·.spells countAlias) =
        false := by
  simp only [locate] at h
  split at h
  · cases h
  · rename_i select hselect
    split at h
    · cases h
    split at h
    · cases h
    · rename_i halias
      cases h
      exact ⟨select, hselect, rfl, rfl, rfl, rfl, by simpa using halias⟩

theorem text_eq (h : locate countAlias text = .ok site) : site.text = text := by
  obtain ⟨select, -, htext, -⟩ := locate_ok h
  exact htext

theorem outline_eq (h : locate countAlias text = .ok site) : site.outline = Outline.of text := by
  obtain ⟨select, -, -, houtline, -⟩ := locate_ok h
  exact houtline

/-- The clauses begin at the end of a word. -/
theorem exists_scope_word (h : locate countAlias text = .ok site) :
    ∃ w ∈ (Outline.of text).words, site.scope = w.stop := by
  obtain ⟨select, hselect, -, -, hscope, -⟩ := locate_ok h
  obtain ⟨w, -, v, hv, rfl, -, -⟩ := place_words (List.mem_of_head? hselect)
  cases hfrom : (Outline.of text).first? .from v.stop with
  | none => exact ⟨v, hv, by simpa [hfrom] using hscope⟩
  | some place =>
    obtain ⟨u, -, t, ht, rfl, -, -⟩ := place_words (List.mem_of_head? hfrom)
    exact ⟨t, ht, by simpa [hfrom] using hscope⟩

/-- The clauses do not begin in front of the end of `SELECT`. -/
theorem select_le_scope (h : locate countAlias text = .ok site) {select : Place}
    (hselect : (Outline.of text).first? .select 0 = some select) : select.stop ≤ site.scope := by
  obtain ⟨select', hselect', -, -, hscope, -⟩ := locate_ok h
  obtain rfl : select' = select := Option.some.inj (hselect'.symm.trans hselect)
  rw [hscope]
  cases hfrom : (Outline.of text).first? .from select'.stop with
  | none => exact Nat.le_refl _
  | some place =>
    have hbounds := place_bounds (List.mem_of_head? hfrom)
    simp only [Option.map_some, Option.getD_some]
    omega

theorem wordBehind?_spec {w : Word} {position : Nat}
    (h : wordBehind? (Outline.of text) position = some w) :
    w ∈ (Outline.of text).words ∧ position ≤ w.start ∧
      ∀ v ∈ (Outline.of text).words, position ≤ v.start → v = w ∨ w.stop ≤ v.before := by
  obtain ⟨hhead, -⟩ := Option.filter_eq_some_iff.1 h
  obtain ⟨hw, hle, -, hbehind⟩ := head?_wordsBetween_spec hhead
  exact ⟨hw, hle, fun v hv hv' => hbehind v hv hv' (word_bounds hv).2.2⟩

/-- So does the list of selected columns, behind `SELECT` or its quantifier. What stands behind
`SELECT` and is no quantifier stands behind that. -/
theorem exists_projection_word (h : locate countAlias text = .ok site) {select : Place}
    (hselect : (Outline.of text).first? .select 0 = some select) :
    ∃ w ∈ (Outline.of text).words, site.projection = w.stop ∧ select.stop ≤ w.stop ∧
      ∀ v ∈ (Outline.of text).words, select.stop ≤ v.start → v.spells "all" = false →
        w.stop ≤ v.before := by
  obtain ⟨select', hselect', -, -, -, hprojection, -⟩ := locate_ok h
  obtain rfl : select' = select := Option.some.inj (hselect'.symm.trans hselect)
  cases hquantifier : (wordBehind? (Outline.of text) select'.stop).filter (·.spells "all") with
  | none =>
    obtain ⟨u, -, w, hw, rfl, -, -⟩ := place_words (List.mem_of_head? hselect)
    exact ⟨w, hw, by simpa [hquantifier] using hprojection, Nat.le_refl _,
      fun v hv hle _ => stop_le_before hw hv hle⟩
  | some w =>
    obtain ⟨hbehind, hall⟩ := Option.filter_eq_some_iff.1 hquantifier
    obtain ⟨hw, hle, hlater⟩ := wordBehind?_spec hbehind
    have hbounds := word_bounds hw
    refine ⟨w, hw, by simpa [hquantifier] using hprojection, by omega, fun v hv hle' hv' => ?_⟩
    rcases hlater v hv hle' with rfl | hlt
    · rw [hv'] at hall
      cases hall
    · exact hlt

/-- No keyword starts with the quantifier `ALL`. -/
theorem spells_all_of_head {k : Keyword} {w : Word} {a : String} (ha : k.parts.head? = some a)
    (hw : w.spells a = true) : w.spells "all" = false := by
  cases hall : w.spells "all" with
  | false => rfl
  | true =>
    have hsame := Word.spells_unique hw hall
    cases k <;> cases ha <;> revert hsame <;> decide

/-- No keyword behind the begin of the clauses stands in front of the count column. -/
theorem projection_le_before (h : locate countAlias text = .ok site) {ks : List Keyword}
    {position : Nat} {p : Place} (hp : p ∈ places ks position (Outline.of text).words)
    (hposition : site.scope ≤ position) : site.projection ≤ p.before := by
  obtain ⟨select, hselect, -⟩ := locate_ok h
  obtain ⟨w, hw, hprojection, -, hlater⟩ := exists_projection_word h hselect
  have hscope := select_le_scope h hselect
  obtain ⟨hle, k, -, hoccurs⟩ := mem_places.1 hp
  obtain ⟨v, hv, u, -, rfl, ⟨a, ha, hspells⟩, -⟩ := hoccurs.words
  rw [hprojection]
  exact hlater v hv (Nat.le_trans hscope (Nat.le_trans hposition hle))
    (spells_all_of_head ha hspells)

theorem projection_le_codeEnd (h : locate countAlias text = .ok site) :
    site.projection ≤ (Outline.of text).codeEnd := by
  obtain ⟨select, hselect, -⟩ := locate_ok h
  obtain ⟨w, hw, hprojection, -⟩ := exists_projection_word h hselect
  rw [hprojection]
  exact (word_bounds hw).2.2

/-! ## Where a clause ends -/

/-- Where the clause ends that begins at a position: in front of the first of the keywords, or at
the end of the code. -/
def clauseEnd (text : List UInt8) (ks : List Keyword) (position : Nat) : Nat :=
  (((Outline.of text).earliest? ks position).map (·.before)).getD (Outline.of text).codeEnd

theorem clauseEnd_le_codeEnd (text : List UInt8) (ks : List Keyword) (position : Nat) :
    clauseEnd text ks position ≤ (Outline.of text).codeEnd := by
  unfold clauseEnd
  cases hp : (Outline.of text).earliest? ks position with
  | none => exact Nat.le_refl _
  | some p =>
    have := place_bounds (List.mem_of_head? hp)
    simp only [Option.map_some, Option.getD_some]
    omega

theorem clauseEnd_le {ks : List Keyword} {position : Nat} {p : Place}
    (hp : p ∈ places ks position (Outline.of text).words) :
    clauseEnd text ks position ≤ p.before := by
  unfold clauseEnd
  cases hfirst : (Outline.of text).earliest? ks position with
  | none =>
    rw [earliest?, List.head?_eq_none_iff] at hfirst
    rw [hfirst] at hp
    cases hp
  | some first => exact earliest?_le hfirst hp

theorem le_clauseEnd {w : Word} (hw : w ∈ (Outline.of text).words) (ks : List Keyword) :
    w.stop ≤ clauseEnd text ks w.stop := by
  unfold clauseEnd
  cases hp : (Outline.of text).earliest? ks w.stop with
  | none => exact (word_bounds hw).2.2
  | some p =>
    have hmem := List.mem_of_head? hp
    exact stop_le_place hw hmem (place_bounds hmem).2.2.2

theorem cut_clauseEnd (hbalanced : Balanced text) (ks : List Keyword) (position : Nat) :
    Cut text (clauseEnd text ks position) 0 := by
  unfold clauseEnd
  cases hp : (Outline.of text).earliest? ks position with
  | none => exact cut_codeEnd hbalanced
  | some p => exact (cut_place (List.mem_of_head? hp)).1

theorem projection_le_clauseEnd (h : locate countAlias text = .ok site) (ks : List Keyword)
    {position : Nat} (hposition : site.scope ≤ position) :
    site.projection ≤ clauseEnd text ks position := by
  unfold clauseEnd
  cases hp : (Outline.of text).earliest? ks position with
  | none => exact projection_le_codeEnd h
  | some p => exact projection_le_before h (List.mem_of_head? hp) hposition

theorem predicateEnd_eq (h : locate countAlias text = .ok site) {w : Word}
    (hw : w ∈ (Outline.of text).words) :
    site.predicateEnd w.stop = clauseEnd text Keyword.afterWhere w.stop := by
  rw [predicateEnd, outline_eq h]
  exact Nat.max_eq_right (le_clauseEnd hw _)

theorem pagingEnd_eq (h : locate countAlias text = .ok site) :
    max site.scope ((site.paging?.map (·.before)).getD site.outline.codeEnd) =
      clauseEnd text Keyword.paging site.scope := by
  obtain ⟨w, hw, hscope⟩ := exists_scope_word h
  rw [paging?, outline_eq h, hscope]
  exact Nat.max_eq_right (le_clauseEnd hw _)

/-! ## The start of a predicate -/

/-- What holds for the bytes of all blank characters holds for those in front of a predicate. -/
theorem forall_blankRun {P : UInt8 → Bool}
    (h : (blanks.all fun c => (String.utf8EncodeChar c).all P) = true) (bs : List UInt8) :
    ∀ b ∈ bs.take (blankRun bs), P b = true := by
  have hwidth (bs : List UInt8) : ∀ b ∈ bs.take (blankWidth bs), P b = true := by
    unfold blankWidth
    split
    · rename_i c hc
      have hprefix := List.find?_some hc
      obtain ⟨t, rfl⟩ := List.isPrefixOf_iff_prefix.1 hprefix
      rw [List.take_left' (String.length_utf8EncodeChar c)]
      exact List.all_eq_true.1 (List.all_eq_true.1 h c (List.mem_of_find?_eq_some hc))
    · simp
  fun_induction blankRun bs with
  | case1 => simp
  | case2 b r hzero => simp
  | case3 b r n hsucc ih =>
    intro a ha
    have hfirst := hwidth (b :: r)
    rw [hsucc] at hfirst
    rw [List.take_add] at ha
    rcases List.mem_append.1 ha with ha | ha
    · exact hfirst a ha
    · exact ih a (by simpa using ha)

/-- So the blanks in front of a predicate change nothing for the reader. -/
theorem isPlain_of_blankRun (bs : List UInt8) :
    ∀ b ∈ bs.take (blankRun bs), Reader.isPlain b = true :=
  forall_blankRun (by decide +kernel) bs

end Site

/-- Plain bytes do not leave a cut. -/
theorem Cut.advance {text : List UInt8} {p d n : Nat} (h : Cut text p d)
    (hplain : ∀ b ∈ (text.drop p).take n, Reader.isPlain b = true) (hle : p + n ≤ text.length) :
    Cut text (p + n) d := by
  cases n with
  | zero => exact h
  | succ n =>
    have htake : text.take (p + (n + 1)) = text.take p ++ (text.drop p).take (n + 1) :=
      List.take_add
    refine ⟨hle, ?_, Reader.splits_of_last fun a ha => ?_⟩
    · have hsplits : Reader.Splits (text.take p) ((text.drop p).take (n + 1)) := by
        intro a ha b hb
        refine h.splits a ha b ?_
        rwa [List.head?_take, if_neg (Nat.succ_ne_zero n)] at hb
      rw [htake, Reader.after_append hsplits, h.reads, Reader.after_of_isPlain hplain]
    · refine Reader.ne_of_isPlain (hplain a ?_)
      have hne : (text.drop p).take (n + 1) ≠ [] := by
        rw [← List.length_pos_iff, List.length_take, List.length_drop]
        omega
      rw [htake, List.getLast?_append_of_ne_nil _ hne] at ha
      exact List.mem_of_getLast? ha

namespace Site

open Outline

variable {countAlias : String} {text : List UInt8} {site : Site} {e : Edit}

/-! ## Edits -/

/-- A place in the base statement that an edit may have. -/
structure Fits (site : Site) (text : List UInt8) (position : Nat) : Prop where
  cut : Cut text position 0
  projection_le : site.projection ≤ position
  le_codeEnd : position ≤ (Outline.of text).codeEnd

theorem fits_count (h : locate countAlias text = .ok site) : site.Fits text site.projection := by
  obtain ⟨select, hselect, -⟩ := locate_ok h
  obtain ⟨w, hw, hprojection, -⟩ := exists_projection_word h hselect
  exact ⟨hprojection ▸ cut_stop hw, Nat.le_refl _, projection_le_codeEnd h⟩

theorem fits_clauseEnd (hbalanced : Balanced text) (h : locate countAlias text = .ok site)
    (ks : List Keyword) {position : Nat} (hposition : site.scope ≤ position) :
    site.Fits text (clauseEnd text ks position) :=
  ⟨cut_clauseEnd hbalanced ks position, projection_le_clauseEnd h ks hposition,
    clauseEnd_le_codeEnd text ks position⟩

theorem fits_place (h : locate countAlias text = .ok site) {ks : List Keyword} {p : Place}
    (hp : p ∈ places ks site.scope (Outline.of text).words) : site.Fits text p.stop := by
  have hbounds := place_bounds hp
  have hle := projection_le_before h hp (Nat.le_refl _)
  exact ⟨(cut_place hp).2, by omega, hbounds.2.2.1⟩

/-- Where the base statement has its own WHERE, if it has one. -/
theorem where_words (h : locate countAlias text = .ok site) {present : Place}
    (hpresent : site.outline.first? .where site.scope = some present) :
    present ∈ places [.where] site.scope (Outline.of text).words ∧
      ∃ w ∈ (Outline.of text).words, present = ⟨w.start, w.stop, w.before⟩ ∧
        w.spells "where" = true ∧ site.scope ≤ w.start := by
  rw [outline_eq h] at hpresent
  have hmem := List.mem_of_head? hpresent
  refine ⟨hmem, ?_⟩
  obtain ⟨hle, k, hk, hoccurs⟩ := mem_places.1 hmem
  obtain rfl : k = .where := by simpa using hk
  cases hoccurs with
  | @single A B w a hparts hws hw =>
    cases hparts
    exact ⟨w, by simp [hws], rfl, hw, hle⟩
  | pair hparts => cases hparts

/-- The texts that are added for a predicate. -/
theorem text_of_mem_predicateEdits {site : Site} {clause : WhereClause} {predicate : String}
    (he : e ∈ site.predicateEdits clause predicate) :
    clause.isEmpty = false ∧ (e.text = "(" ∨ e.text = ") AND " ++ ("(" ++ predicate ++ ")") ∨
      ∃ lead ∈ [" WHERE ", " ", ") AND "], e.text = lead ++ predicate) := by
  unfold predicateEdits at he
  split at he
  · cases he
  rename_i hclause
  refine ⟨by simpa using hclause, ?_⟩
  split at he
  · rw [List.mem_singleton.1 he]
    exact .inr (.inr ⟨" WHERE ", by simp, rfl⟩)
  dsimp only at he
  split at he
  · rcases List.mem_cons.1 he with rfl | he
    · exact .inl rfl
    · rw [List.mem_singleton.1 he]
      split
      · exact .inr (.inl rfl)
      · exact .inr (.inr ⟨") AND ", by simp, rfl⟩)
  · rw [List.mem_singleton.1 he]
    exact .inr (.inr ⟨" ", by simp, rfl⟩)

/-- The texts that are added for sort columns. -/
theorem text_of_mem_orderEdits {site : Site} {order : OrderBy} (he : e ∈ site.orderEdits order) :
    order.isEmpty = false ∧
      (e.text = " ORDER BY " ++ order.render ∨ e.text = " " ++ order.render ++ ",") := by
  unfold orderEdits at he
  split at he
  · cases he
  rename_i horder
  refine ⟨by simpa using horder, ?_⟩
  split at he
  · rw [List.mem_singleton.1 he]
    exact .inr rfl
  · rw [List.mem_singleton.1 he]
    exact .inl rfl

/-- The two cases of a predicate that is added: the edits with the positions they go to. -/
theorem predicateEdits_cases (h : locate countAlias text = .ok site) {clause : WhereClause}
    (predicate : String) (hclause : clause.isEmpty = false) :
    (site.outline.first? .where site.scope = none ∧ site.body? = none ∧
        site.predicateEdits clause predicate =
          [⟨clauseEnd text Keyword.afterWhere site.scope, " WHERE " ++ predicate⟩]) ∨
      ∃ w ∈ (Outline.of text).words,
        site.outline.first? .where site.scope = some ⟨w.start, w.stop, w.before⟩ ∧
        w.spells "where" = true ∧ site.scope ≤ w.start ∧
        ((w.stop + blankRun (text.drop w.stop) < clauseEnd text Keyword.afterWhere w.stop ∧
            site.body? = some (w.stop + blankRun (text.drop w.stop),
              clauseEnd text Keyword.afterWhere w.stop) ∧
            site.predicateEdits clause predicate =
              [⟨w.stop + blankRun (text.drop w.stop), "("⟩,
                ⟨clauseEnd text Keyword.afterWhere w.stop, ") AND " ++
                  if 1 < clause.groups.length then "(" ++ predicate ++ ")" else predicate⟩]) ∨
          (clauseEnd text Keyword.afterWhere w.stop ≤ w.stop + blankRun (text.drop w.stop) ∧
            site.body? = none ∧
            site.predicateEdits clause predicate =
              [⟨clauseEnd text Keyword.afterWhere w.stop, " " ++ predicate⟩])) := by
  unfold predicateEdits body?
  rw [hclause, if_neg Bool.false_ne_true]
  cases hpresent : site.outline.first? .where site.scope with
  | none =>
    obtain ⟨v, hv, hscope⟩ := exists_scope_word h
    left
    simp only [hscope, predicateEnd_eq h hv, and_self]
  | some present =>
    obtain ⟨-, w, hw, rfl, hspells, hle⟩ := where_words h hpresent
    right
    refine ⟨w, hw, rfl, hspells, hle, ?_⟩
    simp only [text_eq h, predicateEnd_eq h hw]
    by_cases hlt : w.stop + blankRun (text.drop w.stop) < clauseEnd text Keyword.afterWhere w.stop
    · left
      simp only [hlt, ↓reduceIte, and_self]
    · right
      simp only [hlt, ↓reduceIte, and_self, and_true]
      omega

/-- The two cases of sort columns that are added. -/
theorem orderEdits_cases (h : locate countAlias text = .ok site) {order : OrderBy}
    (horder : order.isEmpty = false) :
    (site.outline.last? .orderBy site.scope = none ∧
        site.orderEdits order =
          [⟨clauseEnd text Keyword.paging site.scope, " ORDER BY " ++ order.render⟩]) ∨
      ∃ present ∈ places [.orderBy] site.scope (Outline.of text).words,
        site.outline.last? .orderBy site.scope = some present ∧
        site.orderEdits order = [⟨present.stop, " " ++ order.render ++ ","⟩] := by
  unfold orderEdits
  rw [horder, if_neg Bool.false_ne_true]
  cases hpresent : site.outline.last? .orderBy site.scope with
  | none =>
    left
    simp only [pagingEnd_eq h, and_self]
  | some present =>
    right
    rw [outline_eq h] at hpresent
    exact ⟨present, List.mem_of_getLast? hpresent, rfl, rfl⟩

/-- An edit of the predicate goes to the end of a clause, or to the start of the predicate that the
base statement has. -/
theorem predicateEdits_position (h : locate countAlias text = .ok site) {clause : WhereClause}
    {predicate : String} (he : e ∈ site.predicateEdits clause predicate) :
    (∃ w ∈ (Outline.of text).words, site.scope ≤ w.stop ∧
        e.position = clauseEnd text Keyword.afterWhere w.stop) ∨
      ∃ w ∈ (Outline.of text).words,
        site.outline.first? .where site.scope = some ⟨w.start, w.stop, w.before⟩ ∧
        e.position = w.stop + blankRun (text.drop w.stop) ∧
        e.position < clauseEnd text Keyword.afterWhere w.stop := by
  obtain ⟨hclause, -⟩ := text_of_mem_predicateEdits he
  rcases predicateEdits_cases h predicate hclause with
    ⟨-, -, hedits⟩ | ⟨w, hw, hpresent, -, hscope, ⟨hlt, -, hedits⟩ | ⟨-, -, hedits⟩⟩
  · obtain ⟨v, hv, hscope⟩ := exists_scope_word h
    rw [hedits, List.mem_singleton] at he
    exact .inl ⟨v, hv, Nat.le_of_eq hscope, by rw [he, hscope]⟩
  · have hbounds := word_bounds hw
    rw [hedits, List.mem_cons, List.mem_singleton] at he
    rcases he with rfl | rfl
    · exact .inr ⟨w, hw, hpresent, rfl, hlt⟩
    · exact .inl ⟨w, hw, by omega, rfl⟩
  · have hbounds := word_bounds hw
    rw [hedits, List.mem_singleton] at he
    exact .inl ⟨w, hw, by omega, by rw [he]⟩

/-- An edit of the sort columns goes to the end of the clauses in front of the limit, or behind the
`ORDER BY` that the base statement has. -/
theorem orderEdits_position (h : locate countAlias text = .ok site) {order : OrderBy}
    (he : e ∈ site.orderEdits order) :
    e.position = clauseEnd text Keyword.paging site.scope ∨
      ∃ present ∈ places [.orderBy] site.scope (Outline.of text).words,
        e.position = present.stop := by
  obtain ⟨horder, -⟩ := text_of_mem_orderEdits he
  rcases orderEdits_cases h horder with ⟨-, hedits⟩ | ⟨present, hpresent, -, hedits⟩
  · rw [hedits, List.mem_singleton] at he
    exact .inl (by rw [he])
  · rw [hedits, List.mem_singleton] at he
    exact .inr ⟨present, hpresent, by rw [he]⟩

theorem projection_le_predicateEdits (h : locate countAlias text = .ok site)
    {clause : WhereClause} {predicate : String} (he : e ∈ site.predicateEdits clause predicate) :
    site.projection ≤ e.position := by
  rcases predicateEdits_position h he with ⟨w, -, hscope, hend⟩ | ⟨w, -, hpresent, hstart, -⟩
  · rw [hend]
    exact projection_le_clauseEnd h _ hscope
  · have hle := (fits_place h (where_words h hpresent).1).projection_le
    dsimp only at hle
    omega

theorem projection_le_orderEdits (h : locate countAlias text = .ok site) {order : OrderBy}
    (he : e ∈ site.orderEdits order) : site.projection ≤ e.position := by
  rcases orderEdits_position h he with hend | ⟨present, hpresent, hstop⟩
  · rw [hend]
    exact projection_le_clauseEnd h _ (Nat.le_refl _)
  · rw [hstop]
    exact (fits_place h hpresent).projection_le

theorem scope_le_predicateEdits (h : locate countAlias text = .ok site) {clause : WhereClause}
    {predicate : String} (he : e ∈ site.predicateEdits clause predicate) :
    site.scope ≤ e.position := by
  rcases predicateEdits_position h he with ⟨w, hw, hscope, hend⟩ | ⟨w, hw, hpresent, hstart, -⟩
  · rw [hend]
    exact Nat.le_trans hscope (le_clauseEnd hw _)
  · have hbounds := place_bounds (where_words h hpresent).1
    dsimp only at hbounds
    omega

theorem scope_le_orderEdits (h : locate countAlias text = .ok site) {order : OrderBy}
    (he : e ∈ site.orderEdits order) : site.scope ≤ e.position := by
  rcases orderEdits_position h he with hend | ⟨present, hpresent, hstop⟩
  · obtain ⟨w, hw, hscope⟩ := exists_scope_word h
    rw [hend, hscope]
    exact le_clauseEnd hw _
  · have hbounds := place_bounds hpresent
    omega

theorem fits_predicateEdits (hbalanced : Balanced text) (h : locate countAlias text = .ok site)
    {clause : WhereClause} {predicate : String} (he : e ∈ site.predicateEdits clause predicate) :
    site.Fits text e.position := by
  have hprojection := projection_le_predicateEdits h he
  rcases predicateEdits_position h he with ⟨w, -, hscope, hend⟩ | ⟨w, hw, -, hstart, hlt⟩
  · rw [hend]
    exact fits_clauseEnd hbalanced h _ hscope
  · have hend := cut_clauseEnd hbalanced Keyword.afterWhere w.stop
    have hle := clauseEnd_le_codeEnd text Keyword.afterWhere w.stop
    have hcut := (cut_stop hw).advance (isPlain_of_blankRun (text.drop w.stop))
      (Nat.le_trans (Nat.le_of_lt (hstart ▸ hlt)) hend.le)
    exact ⟨hstart ▸ hcut, hprojection, by omega⟩

theorem fits_orderEdits (hbalanced : Balanced text) (h : locate countAlias text = .ok site)
    {order : OrderBy} (he : e ∈ site.orderEdits order) : site.Fits text e.position := by
  rcases orderEdits_position h he with hend | ⟨present, hpresent, hstop⟩
  · rw [hend]
    exact fits_clauseEnd hbalanced h _ (Nat.le_refl _)
  · rw [hstop]
    exact fits_place h hpresent

/-- Neighbouring words have no other word of the outline between them. -/
theorem not_between {A B : List Word} {w v u : Word}
    (hws : (Outline.of text).words = A ++ w :: v :: B) (hu : u ∈ (Outline.of text).words)
    (hwu : w.stop ≤ u.before) : ¬u.stop ≤ v.before := by
  intro huv
  have hub := word_bounds hu
  have hw : w ∈ (Outline.of text).words := by simp [hws]
  have hv : v ∈ (Outline.of text).words := by simp [hws]
  have hwb := word_bounds hw
  have hvb := word_bounds hv
  have hsplit : (Outline.of text).words = (A ++ [w]) ++ v :: B := by simp [hws]
  rw [hws] at hu
  rcases List.mem_append.1 hu with hu | hu
  · have := stop_le_of_mem_front hws hu
    omega
  · rcases List.mem_cons.1 hu with rfl | hu
    · omega
    rcases List.mem_cons.1 hu with rfl | hu
    · omega
    · have := le_before_of_mem_back hsplit hu
      omega

/-- What limits the rows does not stand in the predicate of the base statement. -/
theorem clauseEnd_paging_outside {w : Word} (hw : w ∈ (Outline.of text).words) (scope : Nat) :
    clauseEnd text Keyword.paging scope ≤ w.before ∨
      clauseEnd text Keyword.afterWhere w.stop ≤ clauseEnd text Keyword.paging scope := by
  unfold clauseEnd
  cases hp : (Outline.of text).earliest? Keyword.paging scope with
  | none => exact .inr (clauseEnd_le_codeEnd text _ _)
  | some p =>
    obtain ⟨-, k, hk, hoccurs⟩ := mem_places.1 (List.mem_of_head? hp)
    obtain ⟨v, hv, u, -, rfl, -⟩ := hoccurs.words
    have hvb := word_bounds hv
    simp only [Option.map_some, Option.getD_some]
    rcases word_trichotomy hv hw with rfl | hlt | hlt
    · exact .inl (Nat.le_refl _)
    · left
      omega
    · right
      exact clauseEnd_le (mem_places.2
        ⟨Nat.le_trans hlt hvb.1, k, Keyword.mem_afterWhere hk, hoccurs⟩)

/-- Neither does `ORDER BY`: if not behind it, both of its words stand in front of `WHERE`. -/
theorem orderBy_outside {w : Word} (hw : w ∈ (Outline.of text).words)
    (hwhere : w.spells "where" = true) {p : Place}
    (hp : p ∈ places [.orderBy] position (Outline.of text).words) :
    p.stop ≤ w.before ∨ p ∈ places Keyword.afterWhere w.stop (Outline.of text).words := by
  obtain ⟨A, u, v, B, hws, hu, hv, rfl, -⟩ := place_orderBy hp
  by_cases hle : w.stop ≤ u.start
  · exact .inr (mem_places.2 ⟨hle, .orderBy, by decide, .pair rfl hws hu hv⟩)
  left
  have humem : u ∈ (Outline.of text).words := by simp [hws]
  have hvmem : v ∈ (Outline.of text).words := by simp [hws]
  have hwb := word_bounds hw
  have hub := word_bounds humem
  have hne : u ≠ w := by
    rintro rfl
    exact absurd (Word.spells_unique hu hwhere) (by decide)
  have hne' : v ≠ w := by
    rintro rfl
    exact absurd (Word.spells_unique hv hwhere) (by decide)
  have huw : u.stop ≤ w.before := by
    rcases word_trichotomy humem hw with heq | hlt | hlt
    · exact absurd heq hne
    · exact hlt
    · omega
  have hnot := not_between hws hw huw
  rcases word_trichotomy hvmem hw with heq | hlt | hlt
  · exact absurd heq hne'
  · exact hlt
  · exact absurd hlt hnot

/-- The sort columns do not go into the predicate of the base statement. -/
theorem orderEdits_outside (h : locate countAlias text = .ok site) {order : OrderBy}
    (he : e ∈ site.orderEdits order) {w : Word} (hw : w ∈ (Outline.of text).words)
    (hwhere : w.spells "where" = true) :
    e.position ≤ w.before ∨ clauseEnd text Keyword.afterWhere w.stop ≤ e.position := by
  obtain ⟨horder, -⟩ := text_of_mem_orderEdits he
  rcases orderEdits_cases h horder with ⟨-, hedits⟩ | ⟨present, hpresent, -, hedits⟩
  · rw [hedits, List.mem_singleton] at he
    subst he
    exact clauseEnd_paging_outside hw site.scope
  · rw [hedits, List.mem_singleton] at he
    subst he
    rcases orderBy_outside hw hwhere hpresent with hle | hmem
    · exact .inl hle
    · have hend := clauseEnd_le hmem
      have hbounds := place_bounds hmem
      exact .inr (by dsimp only; omega)

/-- The sort columns go behind the whole predicate or in front of it. -/
theorem orderEdits_apart (h : locate countAlias text = .ok site) {clause : WhereClause}
    {predicate : String} {order : OrderBy} {o : Edit} (ho : o ∈ site.orderEdits order) :
    (∀ e ∈ site.predicateEdits clause predicate, e.position ≤ o.position) ∨
      ∀ e ∈ site.predicateEdits clause predicate, o.position < e.position := by
  cases hclause : clause.isEmpty with
  | true =>
    left
    intro e he
    rw [predicateEdits, hclause, if_pos rfl] at he
    cases he
  | false =>
    rcases predicateEdits_cases h predicate hclause with
      ⟨-, -, hedits⟩ | ⟨w, hw, -, hspells, hscope, ⟨hlt, -, hedits⟩ | ⟨-, -, hedits⟩⟩
    · rw [hedits]
      simp only [List.mem_singleton, forall_eq]
      omega
    · rw [hedits]
      simp only [List.mem_cons, List.not_mem_nil, or_false, forall_eq_or_imp, forall_eq]
      have houtside := orderEdits_outside h ho hw hspells
      have hwb := word_bounds hw
      omega
    · rw [hedits]
      simp only [List.mem_singleton, forall_eq]
      omega

theorem predicateEdits_ordered (h : locate countAlias text = .ok site) (clause : WhereClause)
    (predicate : String) :
    (site.predicateEdits clause predicate).Pairwise fun e e' => e.position < e'.position := by
  cases hclause : clause.isEmpty with
  | true =>
    rw [predicateEdits, hclause, if_pos rfl]
    exact .nil
  | false =>
    rcases predicateEdits_cases h predicate hclause with
      ⟨-, -, hedits⟩ | ⟨w, -, -, -, -, ⟨hlt, -, hedits⟩ | ⟨-, -, hedits⟩⟩
    · rw [hedits]
      exact List.pairwise_singleton _ _
    · rw [hedits]
      simpa using hlt
    · rw [hedits]
      exact List.pairwise_singleton _ _

theorem orderEdits_length (site : Site) (order : OrderBy) :
    (site.orderEdits order).length ≤ 1 := by
  unfold orderEdits
  split
  · simp
  split <;> simp

end Site

/-- Sorting leaves edits alone that are in order. -/
theorem Edit.sort_of_pairwise {es : List Edit}
    (h : es.Pairwise fun a b => a.position ≤ b.position) : Edit.sort es = es := by
  refine List.mergeSort_of_pairwise ?_
  exact h.imp fun hab => decide_eq_true hab

theorem Edit.position_le_trans (a b c : Edit) (hab : decide (a.position ≤ b.position) = true)
    (hbc : decide (b.position ≤ c.position) = true) : decide (a.position ≤ c.position) = true :=
  decide_eq_true (Nat.le_trans (of_decide_eq_true hab) (of_decide_eq_true hbc))

theorem Edit.position_le_total (a b : Edit) :
    (decide (a.position ≤ b.position) || decide (b.position ≤ a.position)) = true := by
  simp only [Bool.or_eq_true, decide_eq_true_eq]
  omega

/-- An edit in front of all others stays there, also if it shares its position with some. -/
theorem Edit.sort_cons {e : Edit} {es : List Edit} (h : ∀ a ∈ es, e.position ≤ a.position) :
    Edit.sort (e :: es) = e :: Edit.sort es := by
  obtain ⟨l₁, l₂, hcons, hrest, hlt⟩ :=
    List.mergeSort_cons position_le_trans position_le_total e es
  have hnil : l₁ = [] := by
    refine List.eq_nil_iff_forall_not_mem.2 fun a ha => ?_
    have hsorted : a ∈ Edit.sort es := by
      rw [Edit.sort, hrest]
      exact List.mem_append_left _ ha
    have hnot := hlt a ha
    simp [h a (List.mem_mergeSort.1 hsorted)] at hnot
  subst hnil
  rw [Edit.sort, Edit.sort, hcons, hrest, List.nil_append, List.nil_append]

/-- Sorting behind a first edit keeps the others, in whatever order. -/
theorem Edit.perm_of_sort {e : Edit} {es es' : List Edit} (h : Edit.sort (e :: es) = e :: es') :
    es'.Perm es := by
  have hperm : (Edit.sort (e :: es)).Perm (e :: es) := List.mergeSort_perm _ _
  rw [h] at hperm
  exact hperm.cons_inv

theorem Edit.mem_of_sort {e : Edit} {es₁ es₂ es' : List Edit}
    (h : Edit.sort (e :: es₁ ++ es₂) = e :: es') : ∀ a ∈ es', a ∈ es₁ ∨ a ∈ es₂ :=
  fun _ ha => List.mem_append.1 ((perm_of_sort h).mem_iff.1 ha)

/-- Edits at different positions have one order. -/
theorem Edit.sort_eq_of_perm {es es' : List Edit} (hperm : es.Perm es')
    (h : es'.Pairwise fun a b => a.position < b.position) : Edit.sort es = es' := by
  have hsorted := (List.pairwise_mergeSort position_le_trans position_le_total es).imp
    fun hab => of_decide_eq_true hab
  have hsorted' := h.imp fun hab => Nat.le_of_lt hab
  refine List.Perm.eq_of_pairwise (fun a b ha hb hab hba => ?_) hsorted hsorted'
    ((List.mergeSort_perm es _).trans hperm)
  have ha' : a ∈ es' := hperm.mem_iff.1 (List.mem_mergeSort.1 ha)
  obtain ⟨i, hi, rfl⟩ := List.mem_iff_getElem.1 ha'
  obtain ⟨j, hj, rfl⟩ := List.mem_iff_getElem.1 hb
  have hordered := List.pairwise_iff_getElem.1 h
  rcases Nat.lt_trichotomy i j with hlt | rfl | hlt
  · have := hordered i j hi hj hlt
    omega
  · rfl
  · have := hordered j i hj hi hlt
    omega

namespace Site

variable {countAlias : String} {text : List UInt8} {site : Site}

/-- The edits of a site are made in one of two orders. -/
theorem sort_edits (h : locate countAlias text = .ok site)
    (clause : WhereClause) (predicate : String) (order : OrderBy) :
    ∃ es, Edit.sort (site.countEdit countAlias ::
        site.predicateEdits clause predicate ++ site.orderEdits order) =
          site.countEdit countAlias :: es ∧
      es.Pairwise (fun a b => a.position ≤ b.position) ∧
      ((es = site.predicateEdits clause predicate ++ site.orderEdits order ∧
          ∀ o ∈ site.orderEdits order,
            ∀ e ∈ site.predicateEdits clause predicate, e.position ≤ o.position) ∨
        (es = site.orderEdits order ++ site.predicateEdits clause predicate ∧
          ∀ o ∈ site.orderEdits order,
            ∀ e ∈ site.predicateEdits clause predicate, o.position < e.position)) := by
  have hfirst : ∀ a ∈ site.predicateEdits clause predicate ++ site.orderEdits order,
      (site.countEdit countAlias).position ≤ a.position := by
    intro a ha
    rcases List.mem_append.1 ha with ha | ha
    · exact projection_le_predicateEdits h ha
    · exact projection_le_orderEdits h ha
  have hpredicate := predicateEdits_ordered h clause predicate
  rw [List.cons_append, Edit.sort_cons hfirst]
  have hlength := orderEdits_length site order
  have hapart : ∀ o ∈ site.orderEdits order,
      (∀ e ∈ site.predicateEdits clause predicate, e.position ≤ o.position) ∨
        ∀ e ∈ site.predicateEdits clause predicate, o.position < e.position :=
    fun o ho => orderEdits_apart h ho
  generalize site.orderEdits order = orders at *
  match orders, hlength with
  | [], _ =>
    have hordered := hpredicate.imp fun hab => Nat.le_of_lt hab
    rw [List.append_nil, Edit.sort_of_pairwise hordered]
    exact ⟨_, rfl, hordered, .inl ⟨rfl, by simp⟩⟩
  | [o], _ =>
    rcases hapart o List.mem_cons_self with hbehind | hfront
    · have hordered : (site.predicateEdits clause predicate ++ [o]).Pairwise
          fun a b => a.position ≤ b.position :=
        List.pairwise_append.2 ⟨hpredicate.imp fun hab => Nat.le_of_lt hab,
          List.pairwise_singleton _ _, by simpa using hbehind⟩
      rw [Edit.sort_of_pairwise hordered]
      exact ⟨_, rfl, hordered, .inl ⟨rfl, by simpa using hbehind⟩⟩
    · have hordered : ([o] ++ site.predicateEdits clause predicate).Pairwise
          fun a b => a.position < b.position := by
        simpa using ⟨hfront, hpredicate⟩
      rw [Edit.sort_eq_of_perm List.perm_append_comm hordered]
      exact ⟨_, rfl, hordered.imp fun hab => Nat.le_of_lt hab, .inr ⟨rfl, by simpa using hfront⟩⟩

end Site

end Listing
