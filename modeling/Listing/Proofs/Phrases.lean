import Listing.Proofs.CodeTokens
import Listing.Proofs.Composition

/-!
# Phrases

What is added to a statement whose names need not be identifiers. A name that is read in code to its
end may hold quoted text and parentheses, also unbalanced ones; the texts around it are fixed, and
what comes of both is a `Phrase`, which may stand anywhere in code and is read in code to its end.
All edits of a site are phrases (`Site.phrase_predicateEdits`, `Site.phrase_orderEdits`), so that a
statement with edits ends in code if the statement does (`Edit.endsInCode_weave`).
-/

namespace Listing

open Text

/-- A text that may be added anywhere in code and is read in code to its end. -/
structure Phrase (u : List UInt8) : Prop where
  fit : Reader.Fit u
  code : EndsInCode u

instance (u : List UInt8) : Decidable (Phrase u) :=
  decidable_of_iff (Reader.Fit u ∧ EndsInCode u) ⟨fun h => ⟨h.1, h.2⟩, fun h => ⟨h.fit, h.code⟩⟩

theorem Addable.phrase {u : List UInt8} (h : Addable u) : Phrase u := ⟨h.fit, .of_neutral h.neutral⟩

section

variable {u v s t : List UInt8}

theorem EndsInCode.append (hu : EndsInCode u) (hv : EndsInCode v) (h : Reader.Splits u v) :
    EndsInCode (u ++ v) := by
  have hmode : ((({} : Reader).after u).after v).mode = (({} : Reader).after v).mode :=
    Reader.mode_after hu
  rw [EndsInCode, Reader.after_append h, hmode, hv]

/-- What follows the start of a text, if both are read in code to their ends. -/
theorem EndsInCode.of_append (hu : EndsInCode u) (h : Reader.Splits u v)
    (huv : EndsInCode (u ++ v)) : EndsInCode v := by
  have hmode : ((({} : Reader).after u).after v).mode = (({} : Reader).after v).mode :=
    Reader.mode_after hu
  rw [EndsInCode, Reader.after_append h, hmode] at huv
  exact huv

theorem EndsInCode.followed (hu : EndsInCode u) (hs : Phrase s) : EndsInCode (u ++ s) :=
  hu.append hs.code (Reader.splits_of_head hs.fit.head)

theorem EndsInCode.join (hu : EndsInCode u) (hs : Phrase s) (hv : EndsInCode v) :
    EndsInCode (u ++ (s ++ v)) :=
  hu.append (hs.code.append hv hs.fit.splits_right) hs.fit.splits_left

theorem Phrase.append (hs : Phrase s) (ht : Phrase t) : Phrase (s ++ t) :=
  ⟨hs.fit.append ht.fit, hs.code.followed ht⟩

/-- A name in its surroundings. -/
theorem Phrase.around (hs : Phrase s) (hu : EndsInCode u) (ht : Phrase t) :
    Phrase (s ++ (u ++ t)) := by
  refine ⟨⟨by simp [hs.fit.ne_nil], ?_, ?_⟩, ?_⟩
  · obtain ⟨b, s, rfl⟩ := List.exists_cons_of_ne_nil hs.fit.ne_nil
    exact hs.fit.head
  · intro a ha
    rw [← List.append_assoc, List.getLast?_append_of_ne_nil _ ht.fit.ne_nil] at ha
    exact ht.fit.last a ha
  · exact hs.code.append (hu.followed ht) hs.fit.splits_right

end

/-! ## Clauses -/

theorem Condition.endsInCode_render {c : Condition} (d : Dialect) (n : Nat)
    (h : EndsInCode (bytes c.column)) : EndsInCode (bytes (c.render d n).sql) := by
  have hafter (post : String) (hpost : Addable (bytes post)) :
      EndsInCode (bytes (c.column ++ post)) := by
    rw [bytes_append]
    exact h.followed hpost.phrase
  have hbetween : Addable (bytes (" BETWEEN " ++ d.placeholder n ++ " AND " ++
      d.placeholder (n + 1))) := by
    have hbetween : Addable (bytes " BETWEEN " ++ bytes (d.placeholder n)) :=
      Addable.append_plain (by decide) (d.plain_placeholder n)
    simp only [bytes_append]
    exact (hbetween.append (by decide)).append_plain (d.plain_placeholder (n + 1))
  have hlike (operator : String) (hoperator : Addable (bytes operator)) :
      Addable (bytes (operator ++ d.placeholder n ++ " ESCAPE '\\'")) := by
    simp only [bytes_append]
    exact (hoperator.append_plain (d.plain_placeholder n)).append (by decide)
  unfold render
  split
  · simpa only [String.append_assoc] using hafter _ hbetween
  · exact .of_neutral (neutral_impossible _)
  · exact .of_neutral (neutral_impossible 1)
  · split
    · cases d.matcher c.caseSensitive with
      | like =>
        simpa only [Matcher.condition, String.append_assoc] using
          hafter _ (hlike " LIKE " (by decide))
      | ilike =>
        simpa only [Matcher.condition, String.append_assoc] using
          hafter _ (hlike " ILIKE " (by decide))
      | glob =>
        have hglob : Addable (bytes (" GLOB " ++ d.placeholder n)) := by
          rw [bytes_append]
          exact Addable.append_plain (by decide) (d.plain_placeholder n)
        simpa only [Matcher.condition, String.append_assoc] using hafter _ hglob
    · have hsign : Addable (bytes (" " ++ c.comparison.sign ++ " " ++ d.placeholder n)) := by
        simp only [bytes_append]
        exact ((Addable.append_plain (by decide) (Comparison.plain_sign _)).append
          (by decide)).append_plain (d.plain_placeholder n)
      simpa only [String.append_assoc] using hafter _ hsign

namespace WhereClause

variable {clause : WhereClause}

theorem phrase_renderGroup {group : List Condition} (d : Dialect) (n : Nat)
    (h : ∀ c ∈ group, EndsInCode (bytes c.column)) :
    Phrase (bytes (renderGroup d n group).sql) := by
  have hbody : EndsInCode
      (bytes (Fragment.join " OR " (Fragment.sequence (Condition.render d) n group)).sql) :=
    alternatives_induction d n (by decide) (fun m c hc => Condition.endsInCode_render d m (h c hc))
      fun u v hu hv => hu.join (by decide) hv
  have hsql : bytes (renderGroup d n group).sql = bytes "(" ++
      (bytes (Fragment.join " OR " (Fragment.sequence (Condition.render d) n group)).sql ++
        bytes ")") := by
    rw [← bytes_append, ← bytes_append, ← String.append_assoc]
    rfl
  rw [hsql]
  exact Phrase.around (by decide) hbody (by decide)

theorem phrase_render (d : Dialect) (n : Nat) (hne : clause.isEmpty = false)
    (h : ∀ c ∈ clause.columns, EndsInCode (bytes c)) : Phrase (bytes (clause.render d n).sql) := by
  have hjoin : Phrase (bytes (" " ++ clause.connective.keyword ++ " ")) := by
    cases clause.connective <;> decide
  exact render_induction d n hne
    (fun m group hgroup => phrase_renderGroup d m fun c hc => h c.column (mem_columns hgroup hc))
    fun u v hu hv => hu.append (hjoin.append hv)

end WhereClause

/-- Sort columns end with a direction. -/
theorem OrderBy.exists_render {order : OrderBy} (hne : order.isEmpty = false)
    (h : ∀ c ∈ order.columns, EndsInCode (bytes c)) :
    ∃ u s, bytes order.render = u ++ s ∧ EndsInCode u ∧ Phrase s := by
  have hfields : order.fields.map SortField.render ≠ [] := by
    rw [ne_eq, List.map_eq_nil_iff]
    rintro hnil
    rw [isEmpty, hnil] at hne
    cases hne
  refine intercalate_induction (P := fun t => ∃ u s, t = u ++ s ∧ EndsInCode u ∧ Phrase s) hfields
    (fun t ht => ?_) ?_
  · obtain ⟨field, hfield, rfl⟩ := List.mem_map.1 ht
    refine ⟨bytes field.column, bytes (" " ++ field.direction.keyword ++
      if field.nullsLast then " NULLS LAST" else ""), ?_, ?_, ?_⟩
    · rw [← bytes_append, SortField.render]
      simp only [String.append_assoc]
    · exact h field.column (List.mem_map_of_mem hfield)
    · cases field.direction <;> cases field.nullsLast <;> decide
  · rintro u _ ⟨u₁, s₁, rfl, hu, hs⟩ ⟨u₂, s₂, rfl, hu₂, hs₂⟩
    refine ⟨u₁ ++ s₁ ++ (bytes ", " ++ u₂), s₂, by simp, ?_, hs₂⟩
    exact (hu.followed hs).join (by decide) hu₂

/-! ## Edits -/

namespace Site

variable {countAlias predicate : String} {site : Site} {clause : WhereClause} {order : OrderBy}

theorem phrase_countEdit (h : EndsInCode (bytes countAlias)) :
    Phrase (bytes (site.countEdit countAlias).text) := by
  simp only [countEdit, bytes_append, List.append_assoc]
  have hfront : Phrase (bytes " count(*) OVER() AS ") := by decide +kernel
  have hback : Phrase (bytes ",") := by decide
  simpa only [bytes_append, List.append_assoc] using hfront.around h hback

theorem phrase_predicateEdits (h : clause.isEmpty = false → Phrase (bytes predicate)) :
    ∀ e ∈ site.predicateEdits clause predicate, Phrase (bytes e.text) := by
  intro e he
  obtain ⟨hclause, htext | htext | ⟨lead, hlead, htext⟩⟩ := text_of_mem_predicateEdits he
  · rw [htext]
    decide
  · have hparens : Phrase (bytes ("(" ++ predicate ++ ")")) := by
      rw [bytes_append, bytes_append]
      exact (Phrase.append (by decide) (h hclause)).append (by decide)
    rw [htext, bytes_append]
    exact Phrase.append (by decide) hparens
  · have hphrase : ∀ lead ∈ [" WHERE ", " ", ") AND "], Phrase (bytes lead) := by decide
    rw [htext, bytes_append]
    exact (hphrase lead hlead).append (h hclause)

theorem phrase_orderEdits (h : ∀ c ∈ order.columns, EndsInCode (bytes c)) :
    ∀ e ∈ site.orderEdits order, Phrase (bytes e.text) := by
  intro e he
  obtain ⟨hne, htext⟩ := text_of_mem_orderEdits he
  obtain ⟨u, s, hrender, hu, hs⟩ := OrderBy.exists_render hne h
  rcases htext with htext | htext
  · rw [htext, bytes_append, hrender]
    exact Phrase.around (by decide) hu hs
  · simp only [htext, bytes_append, hrender, List.append_assoc]
    exact Phrase.around (by decide) hu (hs.append (by decide))

end Site

/-- A text with phrases added at cuts ends in code if it does without them. -/
theorem Edit.endsInCode_weave {text : List UInt8} {cursor : Nat} {es : List Edit}
    (htext : EndsInCode text) (hcursor : Cut text cursor 0)
    (hordered : es.Pairwise fun e a => e.position ≤ a.position)
    (hes : ∀ e ∈ es, cursor ≤ e.position ∧ Cut text e.position 0 ∧ Phrase (bytes e.text)) :
    EndsInCode (weave text cursor es) := by
  have hread {p : Nat} (hp : Cut text p 0) : EndsInCode (text.take p) := by
    rw [EndsInCode, hp.reads]
  induction es generalizing cursor with
  | nil =>
    refine (hread hcursor).of_append hcursor.splits ?_
    rwa [weave, List.take_append_drop]
  | cons e es ih =>
    obtain ⟨hle, hcut, hphrase⟩ := hes e List.mem_cons_self
    obtain ⟨hfirst, hrest⟩ := List.pairwise_cons.1 hordered
    have hfront : EndsInCode ((text.take e.position).drop cursor) := by
      refine (hread hcursor).of_append hcursor.splits_between ?_
      rw [← Cut.take_eq hle]
      exact hread hcut
    rw [weave]
    exact hfront.join hphrase (ih hcut hrest fun a ha =>
      ⟨hfirst a ha, (hes a (List.mem_cons_of_mem e ha)).2⟩)

end Listing
