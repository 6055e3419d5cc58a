import Listing.Proofs.BaseClauses
import Listing.Proofs.RenderedWords

/-!
# Clauses with a predicate

A predicate that is added to a base statement brings its WHERE unless there is one already, and no
other clause (`Site.Arranged.clauses_predicateEdits`). It goes in front of all other clauses: a new
one together with its WHERE, in place of no predicate at all, or behind the predicate of the base,
which is put in parentheses.
-/

namespace Listing

open Text

theorem Site.parted_predicateEdits {site : Site} {clause : WhereClause} {predicate : String} :
    ∀ e ∈ site.predicateEdits clause predicate, e.Parted := by
  intro e he
  rw [Edit.Parted]
  obtain ⟨-, htext | htext | ⟨lead, hlead, htext⟩⟩ := text_of_mem_predicateEdits he
  · rw [htext]
    exact ⟨Ascii.openParen, rfl, rfl⟩
  · rw [htext]
    exact ⟨Ascii.closeParen, rfl, rfl⟩
  · have hparted : ∀ lead ∈ [" WHERE ", " ", ") AND "],
        ∃ b ∈ (bytes lead).head?, isSeparator b = true := by decide
    obtain ⟨b, hb, hsep⟩ := hparted lead hlead
    refine ⟨b, ?_, hsep⟩
    rw [htext, bytes_append, List.head?_append, Option.mem_def.1 hb]
    rfl

namespace Site

open Outline Edit

variable {countAlias : String} {text : List UInt8} {site : Site} {before : List Keyword}
  {clause : WhereClause} {predicate : String} {es : List Edit} {p m : Nat} {w : Word}

/-- A predicate in parentheses, with another one behind it. -/
theorem weave_wrapped {added : String}
    (hlt : w.stop + blankRun (text.drop w.stop) < clauseEnd text Keyword.afterWhere w.stop) :
    weave (text.take (Outline.of text).codeEnd) w.stop
        (⟨w.stop + blankRun (text.drop w.stop), "("⟩ ::
          ⟨clauseEnd text Keyword.afterWhere w.stop, ") AND " ++ added⟩ :: es) =
      (text.drop w.stop).take (blankRun (text.drop w.stop)) ++
        ((Ascii.openParen :: (text.take (clauseEnd text Keyword.afterWhere w.stop)).drop
            (w.stop + blankRun (text.drop w.stop)) ++ [Ascii.closeParen]) ++
          (bytes " AND " ++ (bytes added ++ weave (text.take (Outline.of text).codeEnd)
            (clauseEnd text Keyword.afterWhere w.stop) es))) := by
  have hend := clauseEnd_le_codeEnd text Keyword.afterWhere w.stop
  have hblanks : (text.take (w.stop + blankRun (text.drop w.stop))).drop w.stop =
      (text.drop w.stop).take (blankRun (text.drop w.stop)) := by
    rw [List.drop_take, Nat.add_sub_cancel_left]
  rw [weave, weave, List.take_take, List.take_take, Nat.min_eq_left hend,
    Nat.min_eq_left (Nat.le_trans (Nat.le_of_lt hlt) hend), hblanks, bytes_append]
  simp only [List.append_assoc, List.cons_append, List.nil_append]
  rfl

section

variable (h : Arranged countAlias text site before)

include h

/-- A predicate goes in front of all that may follow one, and of the end of the code. -/
theorem Arranged.predicateEdits_le {b : Nat} (hb : b = (Outline.of text).codeEnd ∨
      ∃ p ∈ places Keyword.afterWhere site.scope (Outline.of text).words, p.before = b) :
    ∀ e ∈ site.predicateEdits clause predicate, e.position ≤ b := by
  intro e he
  rcases hb with rfl | ⟨p, hp, rfl⟩
  · exact (fits_predicateEdits h.balanced h.located he).le_codeEnd
  · obtain ⟨hclause, -⟩ := text_of_mem_predicateEdits he
    rcases predicateEdits_cases h.located predicate hclause with
      ⟨-, -, hedits⟩ | ⟨w, hw, -, hspells, hscope, hcases⟩
    · rw [hedits, List.mem_singleton] at he
      subst he
      exact clauseEnd_le hp
    · have hle : p ∈ places Keyword.afterWhere w.stop (Outline.of text).words := by
        obtain ⟨-, k, hk, hoccurs⟩ := mem_places.1 hp
        exact mem_places.2 ⟨h.place_behind_where hw hspells hscope hp, k, hk, hoccurs⟩
      have hend := clauseEnd_le hle
      rcases hcases with ⟨hlt, -, hedits⟩ | ⟨-, -, hedits⟩
      · rw [hedits] at he
        simp only [List.mem_cons, List.not_mem_nil, or_false] at he
        rcases he with rfl | rfl
        · dsimp only
          omega
        · exact hend
      · rw [hedits, List.mem_singleton] at he
        subst he
        exact hend

/-- A base without WHERE has no clause in front of the place for one. -/
theorem Arranged.clauses_without_where (hnot : .where ∉ before)
    (hle : clauseEnd text Keyword.afterWhere site.scope ≤ p) :
    clausesBetween text site.scope (clauseEnd text Keyword.afterWhere site.scope) = [] ∧
      clausesBetween text site.scope p =
        clausesBetween text (clauseEnd text Keyword.afterWhere site.scope) p := by
  have hjoint := joint_clauseEnd h.balanced Keyword.afterWhere site.scope
  have hscope := h.scope_le_clauseEnd Keyword.afterWhere
  have hnil := h.clauses_predicate h.joint_scope hscope (fun hmem => hnot (by
    rw [h.before_split hjoint hscope (clauseEnd_le_codeEnd _ _ _)
      (noBy_clauseEnd (by decide) _ _ _)]
    exact List.mem_append_left _ hmem))
  refine ⟨hnil, ?_⟩
  rw [clausesBetween_append hjoint hscope hle (.of_head (noBy_clauseEnd (by decide) _ _ _)), hnil]
  rfl

/-- Up to the end of the predicate the base has no clause but WHERE. -/
theorem Arranged.clauses_where (hw : w ∈ (Outline.of text).words)
    (hspells : w.spells "where" = true) (hscope : site.scope ≤ w.start)
    (hle : clauseEnd text Keyword.afterWhere w.stop ≤ p) :
    clausesBetween text site.scope (clauseEnd text Keyword.afterWhere w.stop) = [.where] ∧
      clausesBetween text site.scope p =
        .where :: clausesBetween text (clauseEnd text Keyword.afterWhere w.stop) p := by
  have hwb := word_bounds hw
  have hjointStop := joint_stop hw
  have hjoint := joint_clauseEnd h.balanced Keyword.afterWhere w.stop
  have hend := le_clauseEnd hw Keyword.afterWhere
  obtain ⟨-, hfirst, hlast⟩ := h.where_first hw hspells hscope
  have hnil := h.clauses_predicate hjointStop hend (fun hmem => hlast (by
    rw [clausesBetween_append hjoint hend (clauseEnd_le_codeEnd _ _ _)
      (.of_head (noBy_clauseEnd (by decide) _ _ _))]
    exact List.mem_append_left _ hmem))
  -- the word in front of the predicate is WHERE itself
  have hpair : NoPair (textsBetween text site.scope w.stop)
      (textsBetween text w.stop (clauseEnd text Keyword.afterWhere w.stop)) := by
    refine .of_last fun t ht => ?_
    have hbefore : site.scope ≤ w.before := by
      obtain ⟨v, hv, hv'⟩ := exists_scope_word h.located
      rw [hv'] at hscope ⊢
      exact stop_le_before hv hw hscope
    have hone : textsBetween text w.before w.stop = [w.text] := by
      rw [textsBetween, wordsBetween_word hw]
      rfl
    rw [textsBetween_append (joint_before hw) hbefore
      (b := w.before) (by omega), hone, List.getLast?_append] at ht
    obtain rfl : w.text = t := Option.some.inj ht
    have hnot (a : String) (ha : spelled (bytes "where") a = false) : spelled w.text a = false := by
      cases hother : spelled w.text a with
      | false => rfl
      | true =>
        have hsame := spelled_unique hspells hother
        rw [ha] at hsame
        cases hsame
    exact ⟨hnot "group" (by decide +kernel), hnot "order" (by decide +kernel)⟩
  have hstart : clausesBetween text site.scope (clauseEnd text Keyword.afterWhere w.stop) =
      [.where] := by
    rw [clausesBetween_append hjointStop (by omega) hend hpair, hfirst, hnil]
    rfl
  refine ⟨hstart, ?_⟩
  rw [clausesBetween_append hjoint (by omega) hle (.of_head (noBy_clauseEnd (by decide) _ _ _)),
    hstart]
  rfl

/-- A new predicate brings its WHERE, in front of all other clauses. -/
theorem Arranged.clauses_new_predicate (hb : Behind text site es p) (hnot : .where ∉ before)
    (hpredicate : Enclosed (bytes predicate))
    (hmute : ∀ t ∈ topWords (bytes predicate), Mute t)
    (hle : clauseEnd text Keyword.afterWhere site.scope ≤ p) :
    clausesOf (topWords (weave (text.take (Outline.of text).codeEnd) site.scope
        (⟨clauseEnd text Keyword.afterWhere site.scope, " WHERE " ++ predicate⟩ :: es))) =
      .where :: (clausesBetween text site.scope p ++
        clausesOf (topWords (weave (text.take (Outline.of text).codeEnd) p es))) := by
  have hjoint := joint_clauseEnd h.balanced Keyword.afterWhere site.scope
  obtain ⟨hnil, hbase⟩ := h.clauses_without_where hnot hle
  have hwhere : topWords (bytes " WHERE ") = [bytes "WHERE"] := by cbv
  have hafter : ({} : Reader).after (bytes " WHERE ") = {} := by decide +kernel
  have hhead (ts : List (List UInt8)) : NoBy (bytes "WHERE" :: ts) := by
    intro t ht
    obtain rfl : bytes "WHERE" = t := Option.some.inj ht
    rfl
  have hstarts (ts : List (List UInt8)) : startsWith .where (bytes "WHERE" :: ts) = true := rfl
  have hfront : clausesOf (textsBetween text site.scope
      (clauseEnd text Keyword.afterWhere site.scope)) = [] := hnil
  rw [topWords_weave_split h.joint_scope hjoint (h.scope_le_clauseEnd _)
      (clauseEnd_le_codeEnd _ _ _)
      (hb.edits_cons hle (Nat.le_refl _) ⟨Ascii.space, rfl, rfl⟩),
    weave_self, bytes_append, List.append_assoc, topWords_append hafter (.of_last (by decide)),
    hwhere, List.singleton_append, clausesOf_append (.of_head (hhead _)), hfront, List.nil_append,
    clausesOf_of_startsWith (by decide) (hstarts _), (hpredicate.clausesOf_append hmute _).1,
    (hb.clausesOf_weave hjoint hle).1, hbase]

/-- Behind a WHERE with no predicate of its own, a predicate starts no clause. -/
theorem Arranged.clauses_first_predicate (hb : Behind text site es p)
    (hw : w ∈ (Outline.of text).words) (hspells : w.spells "where" = true)
    (hscope : site.scope ≤ w.start) (hpredicate : Enclosed (bytes predicate))
    (hmute : ∀ t ∈ topWords (bytes predicate), Mute t)
    (hle : clauseEnd text Keyword.afterWhere w.stop ≤ p) :
    clausesOf (topWords (weave (text.take (Outline.of text).codeEnd) site.scope
        (⟨clauseEnd text Keyword.afterWhere w.stop, " " ++ predicate⟩ :: es))) =
      clausesBetween text site.scope p ++
        clausesOf (topWords (weave (text.take (Outline.of text).codeEnd) p es)) := by
  have hwb := word_bounds hw
  have hend := le_clauseEnd hw Keyword.afterWhere
  have hjoint := joint_clauseEnd h.balanced Keyword.afterWhere w.stop
  obtain ⟨hstart, hbase⟩ := h.clauses_where hw hspells hscope hle
  obtain ⟨hclauses, hnoBy⟩ := hb.clausesOf_weave hjoint hle
  obtain ⟨hadded, haddedNoBy⟩ := hpredicate.clausesOf_append hmute
    (weave (text.take (Outline.of text).codeEnd) (clauseEnd text Keyword.afterWhere w.stop) es)
  have hspace : topWords (bytes " ") = [] := by cbv
  have hfront : clausesOf (textsBetween text site.scope
      (clauseEnd text Keyword.afterWhere w.stop)) = [.where] := hstart
  rw [topWords_weave_split h.joint_scope hjoint (by omega) (clauseEnd_le_codeEnd _ _ _)
      (hb.edits_cons hle (Nat.le_refl _) ⟨Ascii.space, rfl, rfl⟩),
    weave_self, bytes_append, List.append_assoc,
    topWords_append (by decide +kernel) (.of_last (by decide)), hspace, List.nil_append,
    clausesOf_append (.of_head (haddedNoBy (hnoBy (noBy_clauseEnd (by decide) _ _ _)))), hfront,
    hadded, hclauses, hbase]
  rfl

/-- A predicate in parentheses, with another one behind it, starts no clause. -/
theorem Arranged.clauses_wrapped (hb : Behind text site es p) (hw : w ∈ (Outline.of text).words)
    {added : String} (hadded : Enclosed (bytes added))
    (hmute : ∀ t ∈ topWords (bytes added), Mute t)
    (hlt : w.stop + blankRun (text.drop w.stop) < clauseEnd text Keyword.afterWhere w.stop)
    (hle : clauseEnd text Keyword.afterWhere w.stop ≤ p) :
    let words := topWords (weave (text.take (Outline.of text).codeEnd) w.stop
      (⟨w.stop + blankRun (text.drop w.stop), "("⟩ ::
        ⟨clauseEnd text Keyword.afterWhere w.stop, ") AND " ++ added⟩ :: es))
    NoBy words ∧ clausesOf words =
      clausesBetween text (clauseEnd text Keyword.afterWhere w.stop) p ++
        clausesOf (topWords (weave (text.take (Outline.of text).codeEnd) p es)) := by
  have hjoint := joint_clauseEnd h.balanced Keyword.afterWhere w.stop
  obtain ⟨hclauses, hnoBy⟩ := hb.clausesOf_weave hjoint hle
  obtain ⟨haddedClauses, haddedNoBy⟩ := hadded.clausesOf_append hmute
    (weave (text.take (Outline.of text).codeEnd) (clauseEnd text Keyword.afterWhere w.stop) es)
  have hplain := isPlain_of_blankRun (text.drop w.stop)
  have hstart := (joint_stop hw).cut.advance hplain
    (Nat.le_trans (Nat.le_of_lt hlt) hjoint.cut.le)
  have hbody := Cut.neutral_between h.balanced hstart hjoint.cut (Nat.le_of_lt hlt)
  have hand : Mute (bytes "AND") := by decide
  have hfront : ∀ t ∈ topWords ((text.drop w.stop).take (blankRun (text.drop w.stop))) ++
      [bytes "AND"], Mute t := by
    intro t ht
    rcases List.mem_append.1 ht with ht | ht
    · exact mute_of_blankRun _ t ht
    · rw [List.mem_singleton.1 ht]
      exact hand
  dsimp only
  rw [weave_wrapped hlt, topWords_wrapped hplain hbody]
  refine ⟨(Mute.noBy hfront).append (haddedNoBy (hnoBy (noBy_clauseEnd (by decide) _ _ _))), ?_⟩
  rw [clausesOf_all_mute hfront, haddedClauses, hclauses]

/-- Nor does one behind a predicate of the base, which goes in parentheses. -/
theorem Arranged.clauses_next_predicate (hb : Behind text site es p)
    (hw : w ∈ (Outline.of text).words) (hspells : w.spells "where" = true)
    (hscope : site.scope ≤ w.start) {added : String} (hadded : Enclosed (bytes added))
    (hmute : ∀ t ∈ topWords (bytes added), Mute t)
    (hlt : w.stop + blankRun (text.drop w.stop) < clauseEnd text Keyword.afterWhere w.stop)
    (hle : clauseEnd text Keyword.afterWhere w.stop ≤ p) :
    clausesOf (topWords (weave (text.take (Outline.of text).codeEnd) site.scope
        (⟨w.stop + blankRun (text.drop w.stop), "("⟩ ::
          ⟨clauseEnd text Keyword.afterWhere w.stop, ") AND " ++ added⟩ :: es))) =
      clausesBetween text site.scope p ++
        clausesOf (topWords (weave (text.take (Outline.of text).codeEnd) p es)) := by
  have hwb := word_bounds hw
  have hend := le_clauseEnd hw Keyword.afterWhere
  obtain ⟨-, hbase⟩ := h.clauses_where hw hspells hscope hle
  obtain ⟨-, hfirst, -⟩ := h.where_first hw hspells hscope
  obtain ⟨hnoBy, hclauses⟩ := h.clauses_wrapped hb hw hadded hmute hlt hle
  have hfront : clausesOf (textsBetween text site.scope w.stop) = [.where] := hfirst
  have hparted : ∀ a ∈ ⟨w.stop + blankRun (text.drop w.stop), "("⟩ ::
      ⟨clauseEnd text Keyword.afterWhere w.stop, ") AND " ++ added⟩ :: es,
        w.stop ≤ a.position ∧ a.Parted := by
    intro a ha
    rcases List.mem_cons.1 ha with rfl | ha
    · exact ⟨Nat.le_add_right _ _, Ascii.openParen, rfl, rfl⟩
    · refine hb.edits_cons (m := w.stop) (by omega) ?_ ?_ a ha
      · exact hend
      · exact ⟨Ascii.closeParen, rfl, rfl⟩
  rw [topWords_weave_split h.joint_scope (joint_stop hw) (by omega) hwb.2.2
      hparted, clausesOf_append (.of_head hnoBy), hclauses, hfront, hbase]
  rfl

/-- A predicate brings its WHERE, unless there is one already. -/
theorem Arranged.clauses_predicateEdits (hb : Behind text site es p)
    (hp : ∀ e ∈ site.predicateEdits clause predicate, e.position ≤ p)
    (hpredicate : clause.isEmpty = false →
      Enclosed (bytes predicate) ∧ ∀ t ∈ topWords (bytes predicate), Mute t) :
    clausesOf (topWords (weave (text.take (Outline.of text).codeEnd) site.scope
        (site.predicateEdits clause predicate ++ es))) =
      Keyword.newWhere before (!clause.isEmpty) ++ (clausesBetween text site.scope p ++
        clausesOf (topWords (weave (text.take (Outline.of text).codeEnd) p es))) := by
  cases hclause : clause.isEmpty with
  | true =>
    have hedits : site.predicateEdits clause predicate = [] := by
      rw [predicateEdits, hclause, if_pos rfl]
    rw [hedits, List.nil_append, (hb.clausesOf_weave h.joint_scope hb.scope_le).1]
    simp [Keyword.newWhere]
  | false =>
    obtain ⟨henclosed, hmute⟩ := hpredicate hclause
    rcases predicateEdits_cases h.located predicate hclause with
      ⟨hnone, -, hedits⟩ | ⟨w, hw, hpresent, hspells, hscope, hcases⟩
    · have hnot : .where ∉ before := fun hmem => h.where_mem_iff.1 hmem hnone
      rw [hedits] at hp ⊢
      rw [List.singleton_append,
        h.clauses_new_predicate hb hnot henclosed hmute (hp _ List.mem_cons_self)]
      simp [Keyword.newWhere, hnot]
    · have hmem : .where ∈ before := h.where_mem_iff.2 (by
        rw [hpresent]
        exact Option.some_ne_none _)
      have hnew : Keyword.newWhere before (!false) = [] := by simp [Keyword.newWhere, hmem]
      rw [hnew, List.nil_append]
      rcases hcases with ⟨hlt, -, hedits⟩ | ⟨-, -, hedits⟩
      · rw [hedits] at hp ⊢
        refine h.clauses_next_predicate hb hw hspells hscope ?_ ?_ hlt
          (hp _ (List.mem_cons_of_mem _ List.mem_cons_self))
        · split
          · exact enclosed_parens henclosed.neutral
          · exact henclosed
        · split
          · rw [bytes_parens, topWords_parens henclosed.neutral]
            simp
          · exact hmute
      · rw [hedits] at hp ⊢
        exact h.clauses_first_predicate hb hw hspells hscope henclosed hmute
          (hp _ List.mem_cons_self)

end

end Site

end Listing
