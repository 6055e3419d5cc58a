import Listing.Proofs.PredicateClauses
import Listing.Proofs.SortClauses

/-!
# The order of clauses in a composed statement

What composing does to the clauses behind FROM, if the base statement has them in order.
`compose_clauses_iff`: scanned again, the composed statement has its clauses in order, each of the
base's and those that were added, if and only if no new ORDER BY runs into the keyword behind it.
It does so where the base has no ORDER BY and nothing, not even a blank, stands between its code and
the LIMIT, OFFSET or FETCH that follows; the two then read as one word, as in
`compose_loses_limit`.

The words of the composed statement are those of its base, with those of the edits at their
positions. The count column has no SELECT and no FROM (`Site.Arranged.clauses_composed`); what the
other edits bring is told behind FROM.
-/

namespace Listing

open Text

/-! ## Clauses that are put in -/

/-- Clauses of a statement before and after a predicate, sort columns and a limit are added. -/
structure Keyword.Extends (before after : List Keyword) (predicate sorted limited : Bool) :
    Prop where
  inOrder : InOrder after
  kept : ∀ k ∈ before, k ∈ after
  where_iff : .where ∈ after ↔ .where ∈ before ∨ predicate = true
  orderBy_iff : .orderBy ∈ after ↔ .orderBy ∈ before ∨ sorted = true
  paging_iff : (∃ k ∈ paging, k ∈ after) ↔ (∃ k ∈ paging, k ∈ before) ∨ limited = true
  not_both : ¬((∃ k ∈ paging, k ∈ before) ∧ limited = true)

namespace Keyword

theorem mem_newWhere {before : List Keyword} {predicate : Bool} {k : Keyword} :
    k ∈ newWhere before predicate ↔ k = .where ∧ predicate = true ∧ .where ∉ before := by
  unfold newWhere
  split <;> simp_all

theorem mem_newOrderBy {before : List Keyword} {sorted : Bool} {k : Keyword} :
    k ∈ newOrderBy before sorted ↔ k = .orderBy ∧ sorted = true ∧ .orderBy ∉ before := by
  unfold newOrderBy
  split <;> simp_all

theorem mem_newPaging {limited : Bool} {k : Keyword} :
    k ∈ newPaging limited ↔ (k = .limit ∨ k = .offset) ∧ limited = true := by
  unfold newPaging
  split <;> simp_all

/-- Clauses that fit between those in front of them and those behind keep the order. -/
theorem InOrder.insert {front new back : List Keyword} (horder : InOrder (front ++ back))
    (hnew : InOrder new) (hfront : ∀ k ∈ front, ∀ k' ∈ new, k ≠ k' ∧ k.rank ≤ k'.rank)
    (hback : ∀ k ∈ new, ∀ k' ∈ back, k ≠ k' ∧ k.rank ≤ k'.rank) :
    InOrder (front ++ (new ++ back)) := by
  obtain ⟨horderFront, horderBack, hcross⟩ := List.pairwise_append.1 (inOrder_iff.1 horder)
  refine inOrder_iff.2 (List.pairwise_append.2 ⟨horderFront,
    List.pairwise_append.2 ⟨inOrder_iff.1 hnew, horderBack, hback⟩, ?_⟩)
  intro k hk k' hk'
  rcases List.mem_append.1 hk' with hk' | hk'
  · exact hfront k hk k' hk'
  · exact hcross k hk k' hk'

theorem inOrder_newWhere {ks before : List Keyword} (predicate : Bool) (horder : InOrder ks)
    (hranks : ∀ k ∈ ks, 2 ≤ k.rank) (hnot : .where ∉ before → .where ∉ ks) :
    InOrder (newWhere before predicate ++ ks) := by
  have hnew : InOrder (newWhere before predicate) := by
    unfold newWhere
    split <;> decide
  show InOrder ([] ++ (newWhere before predicate ++ ks))
  refine InOrder.insert horder hnew (by simp) ?_
  intro k hk k' hk'
  obtain ⟨rfl, -, hold⟩ := mem_newWhere.1 hk
  exact ⟨fun heq => hnot hold (heq ▸ hk'), hranks k' hk'⟩

theorem inOrder_newOrderBy {front back before : List Keyword} {sorted : Bool}
    (horder : InOrder (front ++ back))
    (hsorted : sorted = true → .orderBy ∉ before →
      (∀ k ∈ front, k ≠ .orderBy ∧ k ∉ paging) ∧ ∀ k ∈ back, k ∈ paging) :
    InOrder (front ++ (newOrderBy before sorted ++ back)) := by
  have hnew : InOrder (newOrderBy before sorted) := by
    unfold newOrderBy
    split <;> decide
  refine horder.insert hnew ?_ ?_
  · intro k hk k' hk'
    obtain ⟨rfl, hsort, hold⟩ := mem_newOrderBy.1 hk'
    obtain ⟨hne, hnot⟩ := (hsorted hsort hold).1 k hk
    have hrank : k.rank ≠ 7 := mt mem_paging_iff.2 hnot
    have hle := rank_le_seven k
    refine ⟨hne, ?_⟩
    change k.rank ≤ 6
    omega
  · intro k hk k' hk'
    obtain ⟨rfl, hsort, hold⟩ := mem_newOrderBy.1 hk
    have hrank := mem_paging_iff.1 ((hsorted hsort hold).2 k' hk')
    refine ⟨?_, by rw [hrank]; decide⟩
    rintro rfl
    cases hrank

theorem inOrder_newPaging {ks : List Keyword} {limited : Bool} (horder : InOrder ks)
    (hlimited : limited = true → ∀ k ∈ ks, k ∉ paging) : InOrder (ks ++ newPaging limited) := by
  have hnew : InOrder (newPaging limited) := by cases limited <;> decide
  have hfront : ∀ k ∈ ks, ∀ k' ∈ newPaging limited, k ≠ k' ∧ k.rank ≤ k'.rank := by
    intro k hk k' hk'
    obtain ⟨hlimit, hnewLimit⟩ := mem_newPaging.1 hk'
    have hmem : k' ∈ paging := by
      rcases hlimit with rfl | rfl <;> decide
    refine ⟨?_, mem_paging_iff.1 hmem ▸ rank_le_seven k⟩
    rintro rfl
    exact hlimited hnewLimit k hk hmem
  rw [← List.append_nil ks] at horder
  rw [← List.append_nil (newPaging limited)]
  exact horder.insert hnew hfront (by simp)

theorem inOrder_of_new {front back : List Keyword} {predicate sorted limited : Bool}
    (hclauses : ∀ k ∈ front ++ back, k ∈ clauses) (horder : InOrder (front ++ back))
    (hsorted : sorted = true → .orderBy ∉ front ++ back →
      (∀ k ∈ front, k ∉ paging) ∧ ∀ k ∈ back, k ∈ paging)
    (hlimited : limited = true → ∀ k ∈ front ++ back, k ∉ paging) :
    InOrder (newWhere (front ++ back) predicate ++ (front ++ (newOrderBy (front ++ back) sorted ++
      (back ++ newPaging limited)))) := by
  have hlimit : InOrder (front ++ (back ++ newPaging limited)) := by
    rw [← List.append_assoc]
    exact inOrder_newPaging horder hlimited
  have hsort : InOrder (front ++ (newOrderBy (front ++ back) sorted ++
      (back ++ newPaging limited))) := by
    refine inOrder_newOrderBy hlimit fun hnew hnot => ?_
    obtain ⟨hfront, hback⟩ := hsorted hnew hnot
    refine ⟨fun k hk => ⟨?_, hfront k hk⟩, fun k hk => ?_⟩
    · rintro rfl
      exact hnot (List.mem_append_left back hk)
    · rcases List.mem_append.1 hk with hk | hk
      · exact hback k hk
      · rcases (mem_newPaging.1 hk).1 with rfl | rfl <;> decide
  have hmem (k : Keyword) (hk : k ∈ front ++ (newOrderBy (front ++ back) sorted ++
      (back ++ newPaging limited))) :
      k ∈ front ++ back ∨ k = .orderBy ∨ k = .limit ∨ k = .offset := by
    simp only [List.mem_append, mem_newOrderBy, mem_newPaging] at hk ⊢
    grind
  refine inOrder_newWhere predicate hsort (fun k hk => ?_) fun hnot hk => ?_
  · rcases hmem k hk with hold | rfl | rfl | rfl
    · exact two_le_rank (hclauses k hold)
    · decide
    · decide
    · decide
  · rcases hmem .where hk with hold | hother | hother | hother
    · exact hnot hold
    · cases hother
    · cases hother
    · cases hother

/-- New clauses go to their place: the predicate in front, the sort columns in front of what limits
the rows, and a limit at the end. -/
theorem extends_of_new {front back : List Keyword} {predicate sorted limited : Bool}
    (hclauses : ∀ k ∈ front ++ back, k ∈ clauses) (horder : InOrder (front ++ back))
    (hsorted : sorted = true → .orderBy ∉ front ++ back →
      (∀ k ∈ front, k ∉ paging) ∧ ∀ k ∈ back, k ∈ paging)
    (hlimited : limited = true → ∀ k ∈ front ++ back, k ∉ paging) :
    Extends (front ++ back)
      (newWhere (front ++ back) predicate ++ (front ++ (newOrderBy (front ++ back) sorted ++
        (back ++ newPaging limited)))) predicate sorted limited := by
  have hmem (k : Keyword) : k ∈ newWhere (front ++ back) predicate ++
      (front ++ (newOrderBy (front ++ back) sorted ++ (back ++ newPaging limited))) ↔
      k ∈ front ++ back ∨ (k = .where ∧ predicate = true ∧ .where ∉ front ++ back) ∨
        (k = .orderBy ∧ sorted = true ∧ .orderBy ∉ front ++ back) ∨
        ((k = .limit ∨ k = .offset) ∧ limited = true) := by
    simp only [List.mem_append, mem_newWhere, mem_newOrderBy, mem_newPaging]
    grind
  refine ⟨inOrder_of_new hclauses horder hsorted hlimited, fun k hk => (hmem k).2 (.inl hk),
    ?_, ?_, ?_, ?_⟩
  · rw [hmem]
    by_cases hold : .where ∈ front ++ back <;> simp [hold]
  · rw [hmem]
    by_cases hold : .orderBy ∈ front ++ back <;> simp [hold]
  · constructor
    · rintro ⟨k, hk, hafter⟩
      rcases (hmem k).1 hafter with hold | ⟨rfl, -⟩ | ⟨rfl, -⟩ | ⟨-, hlimit⟩
      · exact .inl ⟨k, hk, hold⟩
      · exact absurd hk (by decide)
      · exact absurd hk (by decide)
      · exact .inr hlimit
    · rintro (⟨k, hk, hold⟩ | hlimit)
      · exact ⟨k, hk, (hmem k).2 (.inl hold)⟩
      · exact ⟨.limit, by decide, (hmem _).2 (.inr (.inr (.inr ⟨.inl rfl, hlimit⟩)))⟩
  · rintro ⟨⟨k, hk, hold⟩, hlimit⟩
    exact hlimited hlimit k hold hk

end Keyword

/-! ## The words of a composed statement -/

namespace Site

open Outline Edit

variable {countAlias : String} {text : List UInt8} {site : Site} {before : List Keyword}
  {es : List Edit} {w : Word}

/-- The words of a statement up to a position, and from there to the end of a word behind it. -/
theorem wordsBetween_around {F B C : List Word} {q : Nat}
    (hws : (Outline.of text).words = F ++ (B ++ w :: C)) (hF : ∀ v ∈ F, v.stop ≤ q)
    (hq : q ≤ w.before) :
    (Outline.of text).wordsBetween 0 q = F ++ B.filter (·.stop ≤ q) ∧
      (Outline.of text).wordsBetween q w.stop = B.filter (q ≤ ·.start) ++ [w] := by
  have hsplit : (Outline.of text).words = (F ++ B) ++ w :: C := by
    rw [hws, List.append_assoc]
  have hbounds := fun v (hv : v ∈ (Outline.of text).words) => word_bounds hv
  rw [hws] at hbounds
  have hwb := hbounds w (by simp)
  have hBw : ∀ v ∈ B, v.stop ≤ w.before := fun v hv =>
    stop_le_of_mem_front hsplit (List.mem_append_right F hv)
  have hCw : ∀ v ∈ C, w.stop ≤ v.before := fun v hv => le_before_of_mem_back hsplit hv
  constructor
  · have h₁ : F.filter (fun v => 0 ≤ v.start ∧ v.stop ≤ q) = F :=
      List.filter_eq_self.2 fun v hv => decide_eq_true ⟨Nat.zero_le _, hF v hv⟩
    have h₂ : B.filter (fun v => 0 ≤ v.start ∧ v.stop ≤ q) = B.filter (·.stop ≤ q) :=
      List.filter_congr fun v _ => by simp
    have h₃ : (w :: C).filter (fun v => 0 ≤ v.start ∧ v.stop ≤ q) = [] := by
      refine List.filter_eq_nil_iff.2 fun v hv => ?_
      simp only [decide_eq_true_eq]
      rcases List.mem_cons.1 hv with rfl | hv
      · omega
      · have := hCw v hv
        have := hbounds v (by simp [hv])
        omega
    rw [wordsBetween, hws, List.filter_append, List.filter_append, h₁, h₂, h₃, List.append_nil]
  · have h₁ : F.filter (fun v => q ≤ v.start ∧ v.stop ≤ w.stop) = [] := by
      refine List.filter_eq_nil_iff.2 fun v hv => ?_
      have := hF v hv
      have := hbounds v (by simp [hv])
      simp only [decide_eq_true_eq]
      omega
    have h₂ : B.filter (fun v => q ≤ v.start ∧ v.stop ≤ w.stop) = B.filter (q ≤ ·.start) := by
      refine List.filter_congr fun v hv => ?_
      have := hBw v hv
      simp only [decide_eq_decide]
      omega
    have h₃ : C.filter (fun v => q ≤ v.start ∧ v.stop ≤ w.stop) = [] := by
      refine List.filter_eq_nil_iff.2 fun v hv => ?_
      have := hCw v hv
      have := hbounds v (by simp [hv])
      simp only [decide_eq_true_eq]
      omega
    rw [wordsBetween, hws, List.filter_append, List.filter_append, List.filter_cons, h₁, h₂, h₃,
      if_pos (decide_eq_true ⟨by omega, Nat.le_refl _⟩), List.nil_append]

theorem getLast?_countEdit (site : Site) (countAlias : String) :
    ∀ a ∈ (bytes (site.countEdit countAlias).text).getLast?, isSeparator a = true := by
  intro a ha
  rw [countEdit, bytes_append, List.getLast?_append] at ha
  obtain rfl : (44 : UInt8) = a := Option.some.inj ha
  rfl

/-- The count column brings its words in front of those of what follows it. -/
theorem topWords_countEdit_append {site : Site} {countAlias : String}
    (halias : Identifier.isPlain countAlias = true) (v : List UInt8) :
    topWords (bytes (site.countEdit countAlias).text ++ v) =
      [bytes "count", bytes "OVER", bytes "AS"] ++ bytes countAlias :: topWords v := by
  have hcount : Addable (bytes (site.countEdit countAlias).text) := addable_countEdit halias
  have hwords : topWords (bytes (site.countEdit countAlias).text) =
      [bytes "count", bytes "OVER", bytes "AS", bytes countAlias] := topWords_count halias
  rw [topWords_append hcount.neutral.closed (.of_last (getLast?_countEdit site countAlias)), hwords]
  rfl

theorem parted_countEdit (site : Site) (countAlias : String) :
    (site.countEdit countAlias).Parted := by
  refine ⟨Ascii.space, ?_, rfl⟩
  rw [countEdit, bytes_append, bytes_append]
  rfl

/-- FROM is no quantifier of SELECT, so it stands behind the count column. -/
theorem Arranged.projection_le_from {A B C : List Word} {select table : Word}
    (h : Arranged countAlias text site before) (hc : Clauses text A select B table C) :
    select.stop ≤ site.projection ∧ site.projection ≤ table.before := by
  have hselectMem : select ∈ (Outline.of text).words := by simp [hc.words]
  have htableMem : table ∈ (Outline.of text).words := by simp [hc.words]
  have hle : select.stop ≤ table.before := le_before_of_mem_back hc.words (by simp)
  have htable := word_bounds htableMem
  have hquantifier : table.spells "all" = false := Word.not_spells hc.isFrom (by decide +kernel)
  obtain ⟨v, -, hprojection, hselect, hbehind⟩ :=
    exists_projection_word h.located hc.first_select
  rw [hprojection]
  exact ⟨hselect, hbehind table htableMem (by dsimp only; omega) hquantifier⟩

/-- The name of the count column is none of the words between SELECT and the end of FROM. -/
theorem Arranged.countAlias_ne_from (h : Arranged countAlias text site before) :
    spelled (bytes countAlias) "from" = false := by
  obtain ⟨A, select, B, table, C, hc, -⟩ := h.exists_clauses
  have htableMem : table ∈ (Outline.of text).words := by simp [hc.words]
  have hscope : site.scope = table.stop := scope_eq h.located hc
  have htable := word_bounds htableMem
  obtain ⟨hselect, hprojection⟩ := h.projection_le_from hc
  obtain ⟨place, hplace, -, -, -, -, hnone⟩ := locate_ok h.located
  rw [hc.first_select] at hplace
  obtain rfl := Option.some.inj hplace
  exact Word.not_spelled hc.isFrom (List.any_eq_false.1 hnone table
    (mem_wordsBetween.2 ⟨htableMem, by dsimp only; omega, by omega⟩))

/-- The words of a statement with the count column, up to FROM and behind it. -/
theorem Arranged.topWords_composed {A B C : List Word} {select table : Word}
    (h : Arranged countAlias text site before) (hc : Clauses text A select B table C)
    (halias : Identifier.isPlain countAlias = true)
    (hes : ∀ e ∈ es, site.scope ≤ e.position ∧ e.Parted) :
    topWords (weave (text.take (Outline.of text).codeEnd) 0 (site.countEdit countAlias :: es)) =
      A.map (·.text) ++ select.text :: (((B.filter (·.stop ≤ site.projection)).map (·.text) ++
        ([bytes "count", bytes "OVER", bytes "AS", bytes countAlias] ++
          (B.filter (site.projection ≤ ·.start)).map (·.text))) ++ table.text ::
            topWords (weave (text.take (Outline.of text).codeEnd) site.scope es)) := by
  have htableMem : table ∈ (Outline.of text).words := by simp [hc.words]
  have hscope : site.scope = table.stop := scope_eq h.located hc
  have htable := word_bounds htableMem
  obtain ⟨hselect, hprojection⟩ := h.projection_le_from hc
  have hjoint : Joint text site.projection := joint_projection h.located
  have hsplit : (Outline.of text).words = (A ++ [select]) ++ (B ++ table :: C) := by
    rw [hc.words]
    simp
  obtain ⟨hfront, hback⟩ := wordsBetween_around hsplit (fun u hu => by
    rcases List.mem_append.1 hu with hu | hu
    · have hbefore : u.stop ≤ select.before := stop_le_of_mem_front hc.words hu
      have hselectMem : select ∈ (Outline.of text).words := by simp [hc.words]
      have hbounds := word_bounds hselectMem
      omega
    · rwa [List.mem_singleton.1 hu]) hprojection
  have hparted : ∀ e ∈ site.countEdit countAlias :: es,
      site.projection ≤ e.position ∧ e.Parted := by
    intro e he
    rcases List.mem_cons.1 he with rfl | he
    · exact ⟨Nat.le_refl _, parted_countEdit site countAlias⟩
    · obtain ⟨hle, hparts⟩ := hes e he
      exact ⟨by omega, hparts⟩
  have hself : weave (text.take (Outline.of text).codeEnd) site.projection
      (site.countEdit countAlias :: es) = bytes (site.countEdit countAlias).text ++
        weave (text.take (Outline.of text).codeEnd) site.projection es := weave_self _ _ _ _
  rw [topWords_weave_split (joint_zero text) hjoint (Nat.zero_le _) (by omega) hparted, hself,
    topWords_countEdit_append halias,
    topWords_weave_split hjoint h.joint_scope (by omega) h.scope_le hes, textsBetween,
    textsBetween, hfront, hscope, hback]
  simp

/-- The count column hides no SELECT and no FROM of the base, and brings none of its own. -/
theorem Arranged.clauses_composed (h : Arranged countAlias text site before)
    (halias : Identifier.isPlain countAlias = true)
    (hes : ∀ e ∈ es, site.scope ≤ e.position ∧ e.Parted) :
    (Outline.of (weave (text.take (Outline.of text).codeEnd) 0
        (site.countEdit countAlias :: es))).clauses? =
      some (clausesOf (topWords (weave (text.take (Outline.of text).codeEnd) site.scope es))) := by
  obtain ⟨A, select, B, table, C, hc, -⟩ := h.exists_clauses
  refine clauses?_of_texts (h.topWords_composed hc halias hes) (fun x hx => ?_) hc.isSelect
    (fun x hx => ?_) hc.isFrom
  · obtain ⟨u, hu, rfl⟩ := List.mem_map.1 hx
    exact hc.noSelect u hu
  · simp only [List.mem_append, List.mem_map, List.mem_filter] at hx
    rcases hx with ⟨u, hu, rfl⟩ | hx | ⟨u, hu, rfl⟩
    · exact hc.noFrom u hu.1
    · simp only [List.mem_cons, List.not_mem_nil, or_false] at hx
      rcases hx with rfl | rfl | rfl | rfl
      · decide +kernel
      · decide +kernel
      · decide +kernel
      · exact h.countAlias_ne_from
    · exact hc.noFrom u hu.1

end Site

section

variable {dialect : Dialect} {countAlias base : String} {baseParams : List Value}
  {clause : WhereClause} {order : OrderBy} {limit : Limit} {before : List Keyword} {site : Site}
  {c : Composed}

open Site Edit

/-- A composed statement is the code of its base with the edits of its site, one after another. -/
theorem bytes_of_compose
    (h : compose dialect countAlias base baseParams clause order limit = .ok c)
    (hsite : Site.locate countAlias (bytes base) = .ok site) {p : Nat}
    (hsorted : Sorted (bytes base) site before order limit p)
    (hle : ∀ e ∈ site.predicateEdits clause (clause.render dialect (baseParams.length + 1)).sql,
      e.position ≤ p) :
    bytes c.sql = weave ((bytes base).take (Outline.of (bytes base)).codeEnd) 0
      (site.countEdit countAlias ::
        (site.predicateEdits clause (clause.render dialect (baseParams.length + 1)).sql ++
          (site.orderEdits order ++ limit.edits (Outline.of (bytes base)).codeEnd))) := by
  obtain ⟨site', hsite', hweave⟩ := weave_of_compose h
  rw [hsite] at hsite'
  obtain rfl := Except.ok.inj hsite'
  obtain ⟨es, hsort, -, hes⟩ := sort_edits hsite clause
    (clause.render dialect (baseParams.length + 1)).sql order
  -- the predicate never goes behind the sort columns
  have heq : es = site.predicateEdits clause (clause.render dialect (baseParams.length + 1)).sql ++
      site.orderEdits order := by
    rcases hes with ⟨heq, -⟩ | ⟨heq, hlt⟩
    · exact heq
    · rw [heq]
      cases horders : site.orderEdits order with
      | nil => simp
      | cons o os =>
        cases hpredicates : site.predicateEdits clause
            (clause.render dialect (baseParams.length + 1)).sql with
        | nil => simp
        | cons e rest =>
          have hback := (hsorted.behind.edits o (by simp [horders])).1
          have hfront := hle e (by simp [hpredicates])
          have := hlt o (by simp [horders]) e (by simp [hpredicates])
          omega
  rw [hweave, hsort, heq, List.cons_append, List.append_assoc]

/-- The clauses of a composed statement: those of its base up to the sort columns, a WHERE in front
of them if it is new, and those from the sort columns on. -/
theorem clauses_of_compose (harranged : Arranged countAlias (bytes base) site before)
    (halias : Identifier.isPlain countAlias = true)
    (hclause : ∀ a ∈ clause.columns, Identifier.isQualified a = true)
    (h : compose dialect countAlias base baseParams clause order limit = .ok c) {p : Nat}
    (hsorted : Sorted (bytes base) site before order limit p) :
    (Outline.of (bytes c.sql)).clauses? =
      some (Keyword.newWhere before (!clause.isEmpty) ++
        (Outline.clausesBetween (bytes base) site.scope p ++
          clausesOf (wordsBehind (bytes base) site order limit p))) := by
  have hle : ∀ e ∈ site.predicateEdits clause
      (clause.render dialect (baseParams.length + 1)).sql, e.position ≤ p :=
    harranged.predicateEdits_le hsorted.place
  have hparted : ∀ e ∈ site.predicateEdits clause
      (clause.render dialect (baseParams.length + 1)).sql ++
        (site.orderEdits order ++ limit.edits (Outline.of (bytes base)).codeEnd),
      site.scope ≤ e.position ∧ e.Parted := by
    intro e he
    rcases List.mem_append.1 he with he | he
    · exact ⟨scope_le_predicateEdits harranged.located he, parted_predicateEdits e he⟩
    · obtain ⟨hback, hparted⟩ := hsorted.behind.edits e he
      exact ⟨Nat.le_trans hsorted.behind.scope_le hback, hparted⟩
  rw [bytes_of_compose h harranged.located hsorted hle,
    harranged.clauses_composed halias hparted,
    harranged.clauses_predicateEdits hsorted.behind hle fun hne =>
      clause.mute_render dialect (baseParams.length + 1) hne hclause]
  rfl

/-- **A composed statement keeps its clauses in order if and only if no new ORDER BY runs into the
keyword behind it.** Otherwise the keyword that limits the rows of the base is lost. -/
theorem compose_clauses_iff (hbalanced : Balanced (bytes base))
    (hbefore : (Outline.of (bytes base)).clauses? = some before)
    (hinOrder : Keyword.InOrder before) (halias : Identifier.isPlain countAlias = true)
    (hclause : ∀ a ∈ clause.columns, Identifier.isQualified a = true)
    (horder : ∀ a ∈ order.columns, Identifier.isQualified a = true)
    (hfree : ∀ a ∈ order.columns, Identifier.FreeOfClauses a)
    (h : compose dialect countAlias base baseParams clause order limit = .ok c) :
    ∃ site, Site.locate countAlias (bytes base) = .ok site ∧
      ((∃ after, (Outline.of (bytes c.sql)).clauses? = some after ∧
          Keyword.Extends before after (!clause.isEmpty) (!order.isEmpty) limit.isBounded) ↔
        ¬site.RunsTogether before order) := by
  obtain ⟨site, -, hsite, hlimit, -⟩ := compose_ok h
  have harranged : Arranged countAlias (bytes base) site before :=
    ⟨hbalanced, hsite, hbefore, hinOrder⟩
  obtain ⟨p, hsorted⟩ := harranged.exists_sorted horder hfree hlimit
  have hclauses := clauses_of_compose harranged halias hclause h hsorted
  refine ⟨site, hsite, ?_, fun hruns => ⟨_, hclauses, ?_⟩⟩
  · rintro ⟨after, hafter, hextends⟩ hruns
    rw [hclauses] at hafter
    obtain rfl := Option.some.inj hafter
    obtain ⟨k, hk, hpaging, hfront, hback⟩ := hsorted.lost hruns
    rcases List.mem_append.1 (hextends.kept k hk) with hin | hin
    · obtain ⟨rfl, -⟩ := Keyword.mem_newWhere.1 hin
      exact absurd hpaging (by decide)
    · rcases List.mem_append.1 hin with hin | hin
      · exact hfront hin
      · exact hback hin
  · have hsplit := harranged.before_split hsorted.behind.joint hsorted.behind.scope_le
      hsorted.behind.le_codeEnd hsorted.behind.noBy_base
    have hall := fun k (hk : k ∈ before) => harranged.mem_clauses hk
    have hpaging : limit.isBounded = true → ∀ k ∈ before, k ∉ Keyword.paging := by
      intro hbounded k hk hmem
      rw [harranged.paging_mem_iff.1 ⟨k, hmem, hk⟩, hbounded] at hlimit
      cases hlimit
    have hapart : (!order.isEmpty) = true → .orderBy ∉ before →
        (∀ k ∈ Outline.clausesBetween (bytes base) site.scope p, k ∉ Keyword.paging) ∧
          ∀ k ∈ Outline.clausesBetween (bytes base) p (Outline.of (bytes base)).codeEnd,
            k ∈ Keyword.paging :=
      fun hne => hsorted.apart (by simpa using hne)
    rw [hsorted.clauses hruns]
    rw [hsplit] at hall hpaging hapart hinOrder ⊢
    exact Keyword.extends_of_new hall hinOrder hapart hpaging

end

/-- Here the keyword that limits the rows stands apart, and stays. -/
theorem compose_clauses_apart :
    ∃ c after, compose .postgres "total" "SELECT a FROM t GROUP BY a LIMIT 5" []
        ⟨.and, [[⟨"t.a", .equal, .null, false⟩]]⟩ ⟨[⟨"a", .ascending, false⟩]⟩ .unbounded = .ok c ∧
      (Outline.of (bytes c.sql)).clauses? = some after ∧
      Keyword.Extends [.groupBy, .limit] after true true false := by
  have h : compose .postgres "total" "SELECT a FROM t GROUP BY a LIMIT 5" []
      ⟨.and, [[⟨"t.a", .equal, .null, false⟩]]⟩ ⟨[⟨"a", .ascending, false⟩]⟩ .unbounded =
        .ok ⟨[.kept "SELECT", .added " count(*) OVER() AS total,", .kept " a FROM t",
          .added " WHERE (t.a = $1)", .kept " GROUP BY a", .added " ORDER BY a ASC",
          .kept " LIMIT 5"], [.null], "total", 7⟩ := by
    cbv
  have hbefore : (Outline.of (bytes "SELECT a FROM t GROUP BY a LIMIT 5")).clauses? =
      some [.groupBy, .limit] := by
    cbv
  have hsite : (Site.locate "total" (bytes "SELECT a FROM t GROUP BY a LIMIT 5")).toOption.bind
      (·.paging?) = some ⟨27, 32, 26⟩ := by
    cbv
  obtain ⟨site, hlocate, hiff⟩ := compose_clauses_iff (by decide +kernel) hbefore
    (by decide) (by decide +kernel) (by decide +kernel) (by decide +kernel) (by decide +kernel) h
  have hapart : ¬site.RunsTogether [.groupBy, .limit] ⟨[⟨"a", .ascending, false⟩]⟩ := by
    rintro ⟨-, -, q, hq, hsame⟩
    rw [hlocate] at hsite
    obtain rfl : ⟨27, 32, 26⟩ = q := Option.some.inj (hsite.symm.trans hq)
    cases hsame
  obtain ⟨after, hafter, hextends⟩ := hiff.2 hapart
  exact ⟨_, after, h, hafter, hextends⟩

/-- A parenthesis may stand in front of LIMIT with no blank between them, a sort column may not. -/
theorem compose_loses_limit :
    ∃ c, compose .sqlite "_zf_count" "SELECT * FROM (SELECT 1 AS a)LIMIT 5" [] ⟨.and, []⟩
        ⟨[⟨"a", .ascending, false⟩]⟩ .unbounded = .ok c ∧
      c.sql = "SELECT count(*) OVER() AS _zf_count, * FROM (SELECT 1 AS a) ORDER BY a ASCLIMIT 5" ∧
      Balanced (bytes "SELECT * FROM (SELECT 1 AS a)LIMIT 5") ∧
      (Outline.of (bytes "SELECT * FROM (SELECT 1 AS a)LIMIT 5")).clauses? = some [.limit] ∧
      Keyword.InOrder [.limit] ∧
      ¬∃ after, (Outline.of (bytes c.sql)).clauses? = some after ∧
        Keyword.Extends [.limit] after false true false := by
  have h : compose .sqlite "_zf_count" "SELECT * FROM (SELECT 1 AS a)LIMIT 5" [] ⟨.and, []⟩
      ⟨[⟨"a", .ascending, false⟩]⟩ .unbounded =
        .ok ⟨[.kept "SELECT", .added " count(*) OVER() AS _zf_count,",
          .kept " * FROM (SELECT 1 AS a)", .added " ORDER BY a ASC", .kept "LIMIT 5"], [],
          "_zf_count", 7⟩ := by
    cbv
  have hsql : String.join (List.map Piece.text [.kept "SELECT",
      .added " count(*) OVER() AS _zf_count,", .kept " * FROM (SELECT 1 AS a)",
      .added " ORDER BY a ASC", .kept "LIMIT 5"]) =
        "SELECT count(*) OVER() AS _zf_count, * FROM (SELECT 1 AS a) ORDER BY a ASCLIMIT 5" := by
    decide +kernel
  have hafter : (Outline.of (bytes
      "SELECT count(*) OVER() AS _zf_count, * FROM (SELECT 1 AS a) ORDER BY a ASCLIMIT 5")).clauses?
        = some [.orderBy] := by
    cbv
  refine ⟨_, h, hsql, by decide +kernel, by cbv, by decide, ?_⟩
  rintro ⟨after, hclauses, hextends⟩
  rw [Composed.sql, hsql, hafter] at hclauses
  obtain rfl := Option.some.inj hclauses
  exact absurd (hextends.kept .limit List.mem_cons_self) (by decide)

end Listing
