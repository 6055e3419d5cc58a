import Listing.Proofs.BaseClauses
import Listing.Proofs.Composition
import Listing.Proofs.RenderedWords

/-!
# Clauses with sort columns and a limit

Where sort columns go there is a position that has all of them and the limit behind it, and from
there on the clauses of the base stay, with a new ORDER BY in front and a new limit at the end
(`Site.Arranged.exists_sorted`). The position is in front of what limits the rows, in front of the
ORDER BY of the base, or the end of the code.

A new ORDER BY may run into the keyword behind it (`Site.RunsTogether`). The last word of the sort
columns and the keyword are one word then, and the keyword is lost (`Site.Arranged.lost_new`).
-/

namespace Listing

open Text

/-! ## Edits that start with a separator -/

theorem Limit.parted_edits (limit : Limit) (position : Nat) :
    ∀ e ∈ limit.edits position, position ≤ e.position ∧ e.Parted := by
  intro e he
  unfold edits at he
  split at he
  · rw [List.mem_singleton] at he
    subst he
    exact ⟨Nat.le_refl _, Ascii.space, rfl, rfl⟩
  · cases he

theorem Site.parted_orderEdits {site : Site} {order : OrderBy} :
    ∀ e ∈ site.orderEdits order, e.Parted := by
  intro e he
  rw [Edit.Parted]
  obtain ⟨-, htext | htext⟩ := text_of_mem_orderEdits he <;> rw [htext] <;>
    exact ⟨Ascii.space, rfl, rfl⟩

/-! ## Sort columns -/

namespace SortStretch

variable {u front last v : List UInt8}

/-- The words of a new ORDER BY and of what follows it. -/
theorem topWords_new (h : SortStretch u front last) (v : List UInt8) :
    topWords (bytes " ORDER BY " ++ (u ++ v)) =
      bytes "ORDER" :: bytes "BY" :: (topWords front ++ topWords (last ++ v)) := by
  have hfront : ({} : Reader).after (bytes " ORDER BY ") = {} := by decide +kernel
  have hwords : topWords (bytes " ORDER BY ") = [bytes "ORDER", bytes "BY"] := by cbv
  have hsep : ∀ a ∈ front.getLast?, isSeparator a = true := by
    rw [h.space]
    decide
  rw [h.eq, topWords_append hfront (.of_last (by decide)), List.append_assoc,
    topWords_append (Reader.after_of_isPlain h.plain) (.of_last hsep), hwords]
  rfl

/-- The words of sort columns that are put in front of others. -/
theorem topWords_more (h : SortStretch u front last) (v : List UInt8) :
    topWords (bytes " " ++ (u ++ (bytes "," ++ v))) = topWords front ++ last :: topWords v := by
  have hspace : topWords (bytes " ") = [] := by cbv
  have hcomma : topWords (bytes ",") = [] := by cbv
  have hword := h.isWord
  have hsep : ∀ a ∈ front.getLast?, isSeparator a = true := by
    rw [h.space]
    decide
  have hafter : ({} : Reader).after (bytes ",") = {} := by decide +kernel
  rw [h.eq, topWords_append (by decide +kernel) (.of_last (by decide)), List.append_assoc,
    topWords_append (Reader.after_of_isPlain h.plain) (.of_last hsep),
    topWords_append (Reader.after_of_isPlain hword.isPlain)
      (Seam.append_right (.of_head (by decide)) (by decide)),
    topWords_append hafter (.of_last (by decide)), hspace, hcomma, topWords_of_isWord hword]
  rfl

end SortStretch

/-- An ORDER BY is one clause, whichever word its columns end with, as long as that is mute. -/
theorem SortText.clausesOf_sorted {u front last : List UInt8} (h : SortText u front last)
    {o b m : List UInt8} (ho : spelled o "order" = true) (hb : spelled b "by" = true) (hm : Mute m)
    (ts : List (List UInt8)) :
    clausesOf (o :: b :: (topWords front ++ m :: ts)) = .orderBy :: clausesOf ts := by
  have hstarts : startsWith .orderBy (o :: b :: (topWords front ++ m :: ts)) = true := by
    simp [startsWith, Keyword.parts, ho, hb]
  rw [clausesOf_of_startsWith (by decide) hstarts, clausesOf_by hb, h.mute _ _ hm.not_by,
    clausesOf_mute hm]

/-- What a word of sort columns spells together with a keyword that limits the rows. -/
theorem spelled_sortEnd_append {last t : List UInt8} {k : Keyword} {name : String}
    (h : ∀ last ∈ sortEnds, ∀ k ∈ Keyword.paging, spelled (last ++ bytes k.opening) name = false)
    (hlast : last ∈ sortEnds) (hk : k ∈ Keyword.paging) (ht : spelled t k.opening = true) :
    spelled (last ++ t) name = false := by
  have hsame := h last hlast k hk
  simp only [spelled, sameIgnoringCase, beq_iff_eq] at ht
  simp only [spelled, sameIgnoringCase, List.map_append] at hsame ⊢
  rwa [ht]

/-- A keyword that limits the rows is no keyword any more at the end of a word of sort columns. -/
theorem mute_sortEnd_append {last t : List UInt8} {k : Keyword} (hlast : last ∈ sortEnds)
    (hk : k ∈ Keyword.paging) (ht : spelled t k.opening = true) : Mute (last ++ t) := by
  have hall : ∀ k' ∈ Keyword.clauses, ∀ a ∈ k'.parts, ∀ last ∈ sortEnds, ∀ k ∈ Keyword.paging,
      spelled (last ++ bytes k.opening) a = false := by
    decide +kernel
  exact fun k' hk' a ha => spelled_sortEnd_append (hall k' hk' a ha) hlast hk ht

/-! ## From the sort columns on -/

namespace Site

open Outline Edit

/-- A new ORDER BY runs into the keyword behind it: nothing stands between the code of the base and
the keyword that limits its rows. -/
def RunsTogether (site : Site) (before : List Keyword) (order : OrderBy) : Prop :=
  order.isEmpty = false ∧ .orderBy ∉ before ∧ ∃ q ∈ site.paging?, q.before = q.start

variable {countAlias : String} {text : List UInt8} {site : Site} {before : List Keyword}
  {clause : WhereClause} {predicate : String} {order : OrderBy} {limit : Limit} {p a : Nat}

theorem weave_codeEnd (text : List UInt8) (limit : Limit) :
    weave (text.take (Outline.of text).codeEnd) (Outline.of text).codeEnd
      (limit.edits (Outline.of text).codeEnd) =
        if limit.isBounded then bytes (" " ++ limit.render) else [] := by
  have hnil : (text.take (Outline.of text).codeEnd).drop (Outline.of text).codeEnd = [] :=
    List.drop_eq_nil_of_le (by
      rw [List.length_take]
      omega)
  unfold Limit.edits
  split
  · rw [weave, weave, List.take_take, Nat.min_self, hnil, List.append_nil, List.nil_append]
  · exact hnil

/-- A limit is the last clause, and one of its own. -/
theorem clausesOf_limit (limit : Limit) :
    let words := topWords (if limit.isBounded then bytes (" " ++ limit.render) else [])
    NoBy words ∧ clausesOf words = Keyword.newPaging limit.isBounded := by
  cases limit with
  | unbounded =>
    simp only [Limit.isBounded, Bool.false_eq_true, ↓reduceIte, topWords_nil]
    exact ⟨by simp [NoBy], rfl⟩
  | bounded limit offset =>
    simp only [Limit.isBounded, ↓reduceIte, topWords_limit]
    refine ⟨?_, ?_⟩
    · intro y hy
      obtain rfl : bytes "LIMIT" = y := Option.some.inj hy
      rfl
    · have hlimit (ts : List (List UInt8)) :
          clausesOf (bytes "LIMIT" :: ts) = .limit :: clausesOf ts :=
        clausesOf_of_startsWith (by decide) rfl
      have hoffset (ts : List (List UInt8)) :
          clausesOf (bytes "OFFSET" :: ts) = .offset :: clausesOf ts :=
        clausesOf_of_startsWith (by decide) rfl
      rw [hlimit, clausesOf_mute (mute_numeral limit), hoffset,
        clausesOf_mute (mute_numeral offset)]
      rfl

/-- Where a new ORDER BY goes, or the end of the code. -/
theorem clauseEnd_paging (h : locate countAlias text = .ok site) :
    (site.paging? = none ∧
        clauseEnd text Keyword.paging site.scope = (Outline.of text).codeEnd) ∨
      ∃ k ∈ Keyword.paging, ∃ w ∈ (Outline.of text).words,
        site.paging? = some ⟨w.start, w.stop, w.before⟩ ∧
        clauseEnd text Keyword.paging site.scope = w.before ∧ spelled w.text k.opening = true ∧
        site.scope ≤ w.start := by
  unfold paging? clauseEnd
  rw [outline_eq h]
  cases hp : (Outline.of text).earliest? Keyword.paging site.scope with
  | none => exact .inl ⟨rfl, rfl⟩
  | some p =>
    right
    obtain ⟨hle, k, hk, hoccurs⟩ := mem_places.1 (List.mem_of_head? hp)
    cases hoccurs with
    | @single A B w a hparts hws hw =>
      refine ⟨k, hk, w, by simp [hws], rfl, rfl, ?_, hle⟩
      rw [Keyword.opening, hparts]
      exact hw
    | pair hparts =>
      revert hk hparts
      cases k <;> simp [Keyword.paging, Keyword.parts]

section

variable (h : Arranged countAlias text site before)

include h

/-- The words from a joint on, if nothing but a limit is added. -/
theorem Arranged.topWords_limit (ha : Joint text a) (hle : a ≤ (Outline.of text).codeEnd)
    (limit : Limit) :
    topWords (weave (text.take (Outline.of text).codeEnd) a
        (limit.edits (Outline.of text).codeEnd)) =
      textsBetween text a (Outline.of text).codeEnd ++
        topWords (if limit.isBounded then bytes (" " ++ limit.render) else []) := by
  rw [topWords_weave_split ha (joint_codeEnd h.balanced) hle (Nat.le_refl _)
    (limit.parted_edits _), weave_codeEnd]

theorem Arranged.clausesOf_rest (ha : Joint text a) (hle : a ≤ (Outline.of text).codeEnd)
    (limit : Limit) :
    clausesOf (topWords (weave (text.take (Outline.of text).codeEnd) a
        (limit.edits (Outline.of text).codeEnd))) =
      clausesBetween text a (Outline.of text).codeEnd ++ Keyword.newPaging limit.isBounded := by
  obtain ⟨hnoBy, hclauses⟩ := clausesOf_limit limit
  rw [h.topWords_limit ha hle, clausesOf_append (.of_head hnoBy), hclauses]
  rfl

/-- What stands behind a joint is all that a limit is added to. -/
theorem Arranged.behind_limit (limit : Limit) :
    Behind text site (limit.edits (Outline.of text).codeEnd) (Outline.of text).codeEnd := by
  refine ⟨joint_codeEnd h.balanced, h.scope_le, Nat.le_refl _, limit.parted_edits _, ?_, ?_⟩
  · rw [weave_codeEnd]
    exact (clausesOf_limit limit).1
  · rw [textsBetween_self]
    simp [NoBy]

/-- The clauses of the base up to a keyword that limits the rows, it, and those behind it. -/
theorem Arranged.before_of_paging {k : Keyword} {w : Word} (hk : k ∈ Keyword.paging)
    (hw : w ∈ (Outline.of text).words) (hspells : spelled w.text k.opening = true)
    (hscope : site.scope ≤ w.before) :
    clausesBetween text w.before (Outline.of text).codeEnd =
        k :: clausesBetween text w.stop (Outline.of text).codeEnd ∧
      before = clausesBetween text site.scope w.before ++
        k :: clausesBetween text w.stop (Outline.of text).codeEnd := by
  have hwb := word_bounds hw
  have hclauses : k ∈ Keyword.clauses ∧ k.parts = [k.opening] := by
    revert hk
    cases k <;> decide
  have hstarts (ts : List (List UInt8)) : startsWith k (w.text :: ts) = true := by
    rw [startsWith, hclauses.2]
    exact hspells
  have hnoBy : NoBy (textsBetween text w.before (Outline.of text).codeEnd) := by
    intro t ht
    rw [head?_textsBetween_before hw _ t ht]
    exact not_by_of_opening hclauses.1 hspells
  have hfirst : clausesBetween text w.before (Outline.of text).codeEnd =
      k :: clausesBetween text w.stop (Outline.of text).codeEnd := by
    rw [clausesBetween, textsBetween_before hw]
    exact clausesOf_of_startsWith hclauses.1 (hstarts _)
  refine ⟨hfirst, ?_⟩
  rw [← hfirst]
  exact h.before_split (joint_before hw) hscope (by omega) hnoBy

/-- The clauses that limit the rows stand behind the place of a new ORDER BY, and only those. -/
theorem Arranged.paging_behind :
    (∀ k ∈ clausesBetween text site.scope (clauseEnd text Keyword.paging site.scope),
        k ∉ Keyword.paging) ∧
      ∀ k ∈ clausesBetween text (clauseEnd text Keyword.paging site.scope)
        (Outline.of text).codeEnd, k ∈ Keyword.paging := by
  have hend := clauseEnd_le_codeEnd text Keyword.paging site.scope
  have hjoint := joint_clauseEnd h.balanced Keyword.paging site.scope
  have hscope := h.scope_le_clauseEnd Keyword.paging
  constructor
  · intro k hk hpaging
    obtain ⟨-, p, hoccurs, hle, hbefore, hlt, hstop⟩ :=
      occurs_of_mem_clausesBetween h.joint_scope hjoint hscope hend hk
    have := clauseEnd_le (mem_places.2 ⟨hle, k, hpaging, hoccurs⟩)
    omega
  · intro k hk
    rcases clauseEnd_paging h.located with ⟨-, heq⟩ | ⟨k₀, hk₀, w, hw, -, heq, hspells, -⟩
    · rw [heq, clausesBetween, textsBetween_self] at hk
      cases hk
    · rw [heq] at hk hscope
      obtain ⟨hfirst, hbefore⟩ := h.before_of_paging hk₀ hw hspells hscope
      have horder := h.inOrder.ordered
      rw [hbefore] at horder
      have hback := (List.pairwise_append.1 horder).2.1
      rw [hfirst] at hk
      have hrank := Keyword.mem_paging_iff.1 hk₀
      rcases List.mem_cons.1 hk with rfl | hk
      · exact hk₀
      · have := (List.pairwise_cons.1 hback).1 k hk
        have := k.rank_le_seven
        exact Keyword.mem_paging_iff.2 (by omega)

end

/-! ## Where the sort columns are -/

/-- The words from a position on, with sort columns and a limit added. -/
def wordsBehind (text : List UInt8) (site : Site) (order : OrderBy) (limit : Limit) (p : Nat) :
    List (List UInt8) :=
  topWords (weave (text.take (Outline.of text).codeEnd) p
    (site.orderEdits order ++ limit.edits (Outline.of text).codeEnd))

/-- A position in front of the sort columns and the limit, and the clauses from there on. -/
structure Sorted (text : List UInt8) (site : Site) (before : List Keyword) (order : OrderBy)
    (limit : Limit) (p : Nat) : Prop where
  behind : Behind text site (site.orderEdits order ++ limit.edits (Outline.of text).codeEnd) p
  /-- A predicate goes in front of the position. -/
  place : p = (Outline.of text).codeEnd ∨
    ∃ q ∈ places Keyword.afterWhere site.scope (Outline.of text).words, q.before = p
  apart : order.isEmpty = false → .orderBy ∉ before →
    (∀ k ∈ clausesBetween text site.scope p, k ∉ Keyword.paging) ∧
      ∀ k ∈ clausesBetween text p (Outline.of text).codeEnd, k ∈ Keyword.paging
  clauses : ¬site.RunsTogether before order →
    clausesOf (wordsBehind text site order limit p) =
      Keyword.newOrderBy before (!order.isEmpty) ++
        (clausesBetween text p (Outline.of text).codeEnd ++ Keyword.newPaging limit.isBounded)
  lost : site.RunsTogether before order → ∃ k ∈ before, k ∈ Keyword.paging ∧
    k ∉ clausesBetween text site.scope p ∧ k ∉ clausesOf (wordsBehind text site order limit p)

/-- The two words of an ORDER BY of the base. -/
structure OrderWords (text : List UInt8) (site : Site) (o b : Word) : Prop where
  mem_order : o ∈ (Outline.of text).words
  mem_by : b ∈ (Outline.of text).words
  isOrder : spelled o.text "order" = true
  isBy : spelled b.text "by" = true
  next : o.stop ≤ b.before
  scope_le : site.scope ≤ o.before
  texts : textsBetween text o.before b.stop = [o.text, b.text]
  place : ⟨o.start, b.stop, o.before⟩ ∈
    places Keyword.afterWhere site.scope (Outline.of text).words

theorem OrderWords.texts_behind {o b : Word} (hw : OrderWords text site o b) :
    textsBetween text o.before (Outline.of text).codeEnd =
        o.text :: b.text :: textsBetween text b.stop (Outline.of text).codeEnd ∧
      clausesBetween text o.before (Outline.of text).codeEnd =
        .orderBy :: clausesBetween text b.stop (Outline.of text).codeEnd := by
  have hob := word_bounds hw.mem_order
  have hbb := word_bounds hw.mem_by
  have hnext := hw.next
  have htexts : textsBetween text o.before (Outline.of text).codeEnd =
      o.text :: b.text :: textsBetween text b.stop (Outline.of text).codeEnd := by
    rw [textsBetween_append (joint_stop hw.mem_by) (b := b.stop) (by omega)
      hbb.2.2, hw.texts]
    rfl
  have hstarts : startsWith .orderBy
      (o.text :: b.text :: textsBetween text b.stop (Outline.of text).codeEnd) = true := by
    simp [startsWith, Keyword.parts, hw.isOrder, hw.isBy]
  refine ⟨htexts, ?_⟩
  rw [clausesBetween, htexts, clausesOf_of_startsWith (by decide) hstarts, clausesOf_by hw.isBy]
  rfl

section

variable (h : Arranged countAlias text site before)

include h

theorem Arranged.sorted_empty (horder : order.isEmpty = true) (limit : Limit) :
    Sorted text site before order limit (Outline.of text).codeEnd := by
  have hedits : site.orderEdits order = [] := by rw [orderEdits, horder, if_pos rfl]
  refine ⟨?_, .inl rfl, ?_, fun _ => ?_, ?_⟩
  · rw [hedits]
    exact h.behind_limit limit
  · rw [horder]
    intro hfalse
    cases hfalse
  · rw [wordsBehind, hedits, horder, List.nil_append,
      h.clausesOf_rest (joint_codeEnd h.balanced) (Nat.le_refl _)]
    simp [Keyword.newOrderBy]
  · rintro ⟨hfalse, -⟩
    rw [horder] at hfalse
    cases hfalse

theorem Arranged.exists_orderWords (hmem : .orderBy ∈ before) (horder : order.isEmpty = false) :
    ∃ o b, OrderWords text site o b ∧
      site.orderEdits order = [⟨b.stop, " " ++ order.render ++ ","⟩] := by
  rcases orderEdits_cases h.located horder with ⟨hnone, -⟩ | ⟨present, hpresent, -, hedits⟩
  · exact absurd hnone (h.orderBy_mem_iff.1 hmem)
  obtain ⟨A, o, b, B, hws, ho, hb, rfl, hle⟩ := place_orderBy hpresent
  have homem : o ∈ (Outline.of text).words := by simp [hws]
  have hnext := le_before_of_mem_back hws List.mem_cons_self
  refine ⟨o, b, ⟨homem, by simp [hws], ho, hb, hnext, ?_, ?_, ?_⟩, hedits⟩
  · obtain ⟨v, hv, hv'⟩ := exists_scope_word h.located
    rw [hv'] at hle ⊢
    exact stop_le_before hv homem hle
  · rw [textsBetween, wordsBetween_pair hws]
    rfl
  · exact mem_places.2 ⟨hle, .orderBy, by decide, .pair rfl hws ho hb⟩

/-- Sort columns in front of others belong to the clause that is there. -/
theorem Arranged.sorted_present {front last : List UInt8} (horder : order.isEmpty = false)
    (hs : SortText (bytes order.render) front last) (hmem : .orderBy ∈ before) (limit : Limit) :
    ∃ p, Sorted text site before order limit p := by
  obtain ⟨o, b, hw, hedits⟩ := h.exists_orderWords hmem horder
  obtain ⟨htexts, hclauses⟩ := hw.texts_behind
  have hob := word_bounds hw.mem_order
  have hbb := word_bounds hw.mem_by
  have hnext := hw.next
  have hjoint := joint_before hw.mem_order
  have hjointStop := joint_stop hw.mem_by
  have hparted : ∀ e ∈ site.orderEdits order ++ limit.edits (Outline.of text).codeEnd,
      b.stop ≤ e.position ∧ e.Parted := by
    intro e he
    rcases List.mem_append.1 he with he | he
    · refine ⟨?_, parted_orderEdits e he⟩
      rw [hedits, List.mem_singleton] at he
      subst he
      exact Nat.le_refl _
    · obtain ⟨hend, hparted⟩ := limit.parted_edits _ e he
      exact ⟨by omega, hparted⟩
  have hwords : wordsBehind text site order limit o.before =
      o.text :: b.text :: (topWords front ++ last ::
        topWords (weave (text.take (Outline.of text).codeEnd) b.stop
          (limit.edits (Outline.of text).codeEnd))) := by
    rw [wordsBehind, topWords_weave_split hjoint hjointStop (by omega) hbb.2.2 hparted, hw.texts,
      hedits, List.singleton_append, weave_self, bytes_append, bytes_append, List.append_assoc,
      List.append_assoc, hs.topWords_more]
    rfl
  have hnoBy (ts : List (List UInt8)) : NoBy (o.text :: ts) := by
    intro t ht
    obtain rfl : o.text = t := Option.some.inj ht
    exact not_by_of_opening (k := .orderBy) (by decide) hw.isOrder
  refine ⟨o.before, ⟨hjoint, hw.scope_le, by omega, fun e he => ?_, ?_, ?_⟩,
    .inr ⟨_, hw.place, rfl⟩, fun _ hnot => absurd hmem hnot, fun _ => ?_,
    fun hruns => absurd hmem hruns.2.1⟩
  · obtain ⟨hstop, hparted⟩ := hparted e he
    exact ⟨by omega, hparted⟩
  · rw [← wordsBehind, hwords]
    exact hnoBy _
  · rw [htexts]
    exact hnoBy _
  · rw [hwords, hs.clausesOf_sorted hw.isOrder hw.isBy (sortEnds_spec hs.last).2,
      h.clausesOf_rest hjointStop hbb.2.2, hclauses]
    simp [Keyword.newOrderBy, hmem]

/-- The words of a new ORDER BY, and of what stands behind it. -/
theorem Arranged.wordsBehind_new {front last : List UInt8} (horder : order.isEmpty = false)
    (hs : SortText (bytes order.render) front last) (hmem : .orderBy ∉ before) (limit : Limit) :
    wordsBehind text site order limit (clauseEnd text Keyword.paging site.scope) =
      bytes "ORDER" :: bytes "BY" :: (topWords front ++ topWords (last ++
        weave (text.take (Outline.of text).codeEnd) (clauseEnd text Keyword.paging site.scope)
          (limit.edits (Outline.of text).codeEnd))) := by
  rcases orderEdits_cases h.located horder with ⟨-, hedits⟩ | ⟨present, -, hpresent, -⟩
  · rw [wordsBehind, hedits, List.singleton_append, weave_self, bytes_append, List.append_assoc,
      hs.topWords_new]
  · exact absurd (h.orderBy_mem_iff.2 (by rw [hpresent]; exact Option.some_ne_none _)) hmem

/-- A new ORDER BY is a clause in front of those that limit the rows, unless it runs into them. -/
theorem Arranged.clauses_new {front last : List UInt8} (horder : order.isEmpty = false)
    (hs : SortText (bytes order.render) front last) (hmem : .orderBy ∉ before)
    (hlimit : (limit.isBounded && site.paging?.isSome) = false)
    (hruns : ¬site.RunsTogether before order) :
    clausesOf (wordsBehind text site order limit (clauseEnd text Keyword.paging site.scope)) =
      .orderBy :: (clausesBetween text (clauseEnd text Keyword.paging site.scope)
        (Outline.of text).codeEnd ++ Keyword.newPaging limit.isBounded) := by
  obtain ⟨hword, hmute⟩ := sortEnds_spec hs.last
  have hjoint := joint_clauseEnd h.balanced Keyword.paging site.scope
  have hend := clauseEnd_le_codeEnd text Keyword.paging site.scope
  have hhead : ∀ x ∈ (weave (text.take (Outline.of text).codeEnd)
      (clauseEnd text Keyword.paging site.scope)
        (limit.edits (Outline.of text).codeEnd)).head?, Lexeme.isWordByte x = false := by
    rcases clauseEnd_paging h.located with ⟨-, heq⟩ | ⟨k, -, w, hw, hpaging, heq, -, -⟩
    · rw [heq, weave_codeEnd]
      intro x hx
      split at hx
      · rw [bytes_append] at hx
        obtain rfl : Ascii.space = x := Option.some.inj hx
        rfl
      · cases hx
    · have hunbounded : limit.isBounded = false := by simpa [hpaging] using hlimit
      have hlt : w.before < w.start := by
        have hne : w.before ≠ w.start := fun hsame =>
          hruns ⟨horder, hmem, _, hpaging, hsame⟩
        have := word_bounds hw
        omega
      rw [heq, Limit.edits, hunbounded, if_neg Bool.false_ne_true, weave]
      intro x hx
      refine head_of_before_lt hw hlt x ?_
      rw [List.drop_take, List.head?_take] at hx
      split at hx
      · cases hx
      · exact hx
  rw [h.wordsBehind_new horder hs hmem, topWords_append (Reader.after_of_isPlain hword.isPlain)
      (.of_isWord hword hhead), topWords_of_isWord hword, List.singleton_append,
    hs.clausesOf_sorted (by decide +kernel) (by decide +kernel) hmute,
    h.clausesOf_rest hjoint hend]

/-- A new ORDER BY that runs into the keyword behind it makes one word of the two, so that only the
clauses behind the keyword are left. -/
theorem Arranged.clauses_running {front last : List UInt8} {k : Keyword} (hk : k ∈ Keyword.paging)
    (horder : order.isEmpty = false) (hs : SortText (bytes order.render) front last)
    (hmem : .orderBy ∉ before) (hw : w ∈ (Outline.of text).words)
    (hspells : spelled w.text k.opening = true)
    (heq : clauseEnd text Keyword.paging site.scope = w.before) (hsame : w.before = w.start)
    (hunbounded : limit.isBounded = false) :
    clausesOf (wordsBehind text site order limit w.before) =
      .orderBy :: clausesBetween text w.stop (Outline.of text).codeEnd := by
  obtain ⟨hword, -⟩ := sortEnds_spec hs.last
  have hwb := word_bounds hw
  have hjointStop := joint_stop hw
  obtain ⟨htext, hwWord⟩ := word_text hw
  have hone : IsWord (last ++ w.text) := by
    refine ⟨by simp [hword.ne_nil], fun a ha => ?_⟩
    rcases List.mem_append.1 ha with ha | ha
    · exact hword.all a ha
    · exact hwWord.all a ha
  have hseam : Seam (last ++ w.text) ((text.take (Outline.of text).codeEnd).drop w.stop) := by
    refine hjointStop.seam_between.congr_last ?_
    rw [Cut.take_eq (show w.start ≤ w.stop by omega), htext,
      List.getLast?_append_of_ne_nil _ hwWord.ne_nil,
      List.getLast?_append_of_ne_nil _ hwWord.ne_nil]
  have hrest : weave (text.take (Outline.of text).codeEnd) w.before
      (limit.edits (Outline.of text).codeEnd) =
        w.text ++ (text.take (Outline.of text).codeEnd).drop w.stop := by
    have hle : w.before ≤ w.stop := by omega
    rw [Limit.edits, hunbounded, if_neg Bool.false_ne_true,
      Edit.weave_split hle hwb.2.2 (by simp), hsame, htext]
    rfl
  have htail : clausesOf (topWords ((text.take (Outline.of text).codeEnd).drop w.stop)) =
      clausesBetween text w.stop (Outline.of text).codeEnd := by
    rw [topWords_stretch hjointStop (joint_codeEnd h.balanced) hwb.2.2]
    rfl
  have hwords := h.wordsBehind_new horder hs hmem limit
  rw [heq] at hwords
  rw [hwords, hrest, ← List.append_assoc, topWords_append
    (Reader.after_of_isPlain hone.isPlain) hseam, topWords_of_isWord hone, List.singleton_append,
    hs.clausesOf_sorted (by decide +kernel) (by decide +kernel)
      (mute_sortEnd_append hs.last hk hspells), htail]

/-- The keyword that a new ORDER BY runs into is lost, since the base has it only once. -/
theorem Arranged.lost_new {front last : List UInt8} (hs : SortText (bytes order.render) front last)
    (hlimit : (limit.isBounded && site.paging?.isSome) = false)
    (hruns : site.RunsTogether before order) :
    ∃ k ∈ before, k ∈ Keyword.paging ∧
      k ∉ clausesBetween text site.scope (clauseEnd text Keyword.paging site.scope) ∧
      k ∉ clausesOf (wordsBehind text site order limit
        (clauseEnd text Keyword.paging site.scope)) := by
  obtain ⟨horder, hmem, q, hq, hsame⟩ := hruns
  rcases clauseEnd_paging h.located with ⟨hnone, -⟩ | ⟨k, hk, w, hw, hpaging, heq, hspells, hscope⟩
  · rw [hnone] at hq
    cases hq
  rw [hpaging, Option.mem_some] at hq
  subst hq
  have hunbounded : limit.isBounded = false := by simpa [hpaging] using hlimit
  have hle : site.scope ≤ w.before := by
    dsimp only at hsame
    omega
  obtain ⟨-, hbefore⟩ := h.before_of_paging hk hw hspells hle
  have hnodup := h.inOrder.nodup
  rw [hbefore] at hnodup
  obtain ⟨-, hback, hfront⟩ := List.nodup_append.1 hnodup
  rw [heq]
  refine ⟨k, by simp [hbefore], hk, fun hin => hfront k hin k List.mem_cons_self rfl, ?_⟩
  rw [h.clauses_running hk horder hs hmem hw hspells heq hsame hunbounded]
  intro hin
  rcases List.mem_cons.1 hin with rfl | hin
  · exact absurd hk (by decide)
  · exact (List.nodup_cons.1 hback).1 hin

theorem Arranged.behind_new {front last : List UInt8} (horder : order.isEmpty = false)
    (hs : SortText (bytes order.render) front last) (hmem : .orderBy ∉ before) (limit : Limit) :
    Behind text site (site.orderEdits order ++ limit.edits (Outline.of text).codeEnd)
      (clauseEnd text Keyword.paging site.scope) := by
  refine ⟨joint_clauseEnd h.balanced _ _, h.scope_le_clauseEnd _, clauseEnd_le_codeEnd _ _ _,
    fun e he => ?_, ?_, noBy_clauseEnd (by decide) _ _ _⟩
  · rcases List.mem_append.1 he with he | he
    · refine ⟨?_, parted_orderEdits e he⟩
      rcases orderEdits_cases h.located horder with ⟨-, hedits⟩ | ⟨present, -, hpresent, -⟩
      · rw [hedits, List.mem_singleton] at he
        subst he
        exact Nat.le_refl _
      · exact absurd (h.orderBy_mem_iff.2 (by rw [hpresent]; exact Option.some_ne_none _)) hmem
    · obtain ⟨hend, hparted⟩ := limit.parted_edits _ e he
      exact ⟨Nat.le_trans (clauseEnd_le_codeEnd _ _ _) hend, hparted⟩
  · rw [← wordsBehind, h.wordsBehind_new horder hs hmem]
    intro t ht
    obtain rfl : bytes "ORDER" = t := Option.some.inj ht
    rfl

theorem Arranged.place_paging :
    clauseEnd text Keyword.paging site.scope = (Outline.of text).codeEnd ∨
      ∃ q ∈ places Keyword.afterWhere site.scope (Outline.of text).words,
        q.before = clauseEnd text Keyword.paging site.scope := by
  rcases clauseEnd_paging h.located with ⟨-, heq⟩ | ⟨-, -, w, -, hpaging, heq, -, -⟩
  · exact .inl heq
  · refine .inr ⟨⟨w.start, w.stop, w.before⟩, ?_, heq.symm⟩
    rw [paging?, outline_eq h.located] at hpaging
    obtain ⟨hle, k, hk, hoccurs⟩ := mem_places.1 (List.mem_of_head? hpaging)
    exact mem_places.2 ⟨hle, k, Keyword.mem_afterWhere hk, hoccurs⟩

/-- The sort columns and the limit start at a position of their own. -/
theorem Arranged.exists_sorted (hcolumns : ∀ c ∈ order.columns, Identifier.isQualified c = true)
    (hfree : ∀ c ∈ order.columns, Identifier.FreeOfClauses c)
    (hlimit : (limit.isBounded && site.paging?.isSome) = false) :
    ∃ p, Sorted text site before order limit p := by
  cases horder : order.isEmpty with
  | true => exact ⟨_, h.sorted_empty horder limit⟩
  | false =>
    obtain ⟨front, last, hs⟩ := OrderBy.sortText horder hcolumns hfree
    by_cases hmem : .orderBy ∈ before
    · exact h.sorted_present horder hs hmem limit
    · refine ⟨_, h.behind_new horder hs hmem limit, h.place_paging, fun _ _ => h.paging_behind,
        fun hruns => ?_, h.lost_new hs hlimit⟩
      rw [h.clauses_new horder hs hmem hlimit hruns]
      simp [Keyword.newOrderBy, hmem, horder]

end

end Site

end Listing
