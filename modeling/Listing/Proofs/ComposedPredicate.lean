import Listing.Proofs.PredicateLayout

/-!
# The predicate of a composed statement

`predicateText?_of_compose`: the predicate that a composed statement has at its top level is what
was put behind WHERE, up to the blanks in front of it. Two things might hide it. What follows the
predicate must open with the keyword of a clause (`Site.Around.follows`), and a name in front of it
must not be taken for its WHERE, nor a name behind it for the FROM that the base has not
(`Site.Unmistaken`): names are inserted without quotes, and the count column of a statement that
selects from nothing may be called `where`.
-/

namespace Listing

open Text

namespace Site

open Outline Edit

variable {countAlias : String} {text : List UInt8} {site : Site} {clause : WhereClause}
  {predicate : String} {order : OrderBy} {limit : Limit} {front a : Nat}

/-! ## Behind the predicate -/

theorem opens_orderBy {ks : List Keyword} (hks : .orderBy ∈ ks) (render : String)
    (v : List UInt8) : Opens ks (bytes (" ORDER BY " ++ render) ++ v) := by
  have hclosed : ({} : Reader).after (bytes " ORDER BY ") = {} := by decide +kernel
  have hwords : (Outline.of (bytes " ORDER BY ")).words =
      [⟨1, 6, 0, bytes "ORDER"⟩, ⟨7, 9, 6, bytes "BY"⟩] := by cbv
  have hopens : Opens ks (bytes " ORDER BY ") := by
    refine ⟨⟨1, 9, 0⟩, mem_places.2 ⟨Nat.zero_le _, .orderBy, hks, ?_⟩, rfl⟩
    rw [hwords]
    exact .pair (A := []) (B := []) (w := ⟨1, 6, 0, bytes "ORDER"⟩) (v := ⟨7, 9, 6, bytes "BY"⟩)
      rfl rfl (by decide) (by decide)
  rw [bytes_append, List.append_assoc]
  exact hopens.append hclosed (.of_last (by decide))

theorem opens_limit {ks : List Keyword} (hks : .limit ∈ ks) (rest : List UInt8) :
    Opens ks (bytes " LIMIT " ++ rest) := by
  have hclosed : ({} : Reader).after (bytes " LIMIT ") = {} := by decide +kernel
  have hwords : (Outline.of (bytes " LIMIT ")).words = [⟨1, 6, 0, bytes "LIMIT"⟩] := by cbv
  have hopens : Opens ks (bytes " LIMIT ") := by
    refine ⟨⟨1, 6, 0⟩, mem_places.2 ⟨Nat.zero_le _, .limit, hks, ?_⟩, rfl⟩
    rw [hwords]
    exact .single (A := []) (B := []) (w := ⟨1, 6, 0, bytes "LIMIT"⟩) rfl rfl (by decide)
  exact hopens.append hclosed (.of_last (by decide))

theorem follows_limit (hbalanced : Balanced text) (limit : Limit) (a : Nat) :
    ∀ e ∈ limit.edits (Outline.of text).codeEnd, Follows text Keyword.afterWhere a e := by
  intro e he
  obtain ⟨-, hparted⟩ := limit.parted_edits _ e he
  cases limit with
  | unbounded => cases he
  | bounded limit offset =>
    obtain rfl := List.mem_singleton.1 he
    rcases Nat.lt_or_eq_of_le (clauseEnd_le_codeEnd text Keyword.afterWhere a) with hlt | heq
    · exact .behind (joint_codeEnd hbalanced) hparted hlt (Nat.le_refl _)
        fun q hq _ => (place_bounds hq).2.2.1
    · refine .opens heq.symm fun v => ?_
      rw [Limit.bytes_bounded, List.append_assoc]
      exact opens_limit (by decide) _

/-- No clause reaches from the front of the keyword that limits the rows to behind it. -/
theorem stop_le_clauseEnd_paging (h : locate countAlias text = .ok site) {ks : List Keyword}
    {q : Place} (hq : q ∈ places ks a (Outline.of text).words)
    (hlt : q.before < clauseEnd text Keyword.paging site.scope) :
    q.stop ≤ clauseEnd text Keyword.paging site.scope := by
  rcases clauseEnd_paging h with ⟨-, hend⟩ | ⟨k, hk, w, hw, -, hend, hspells, -⟩
  · rw [hend]
    exact (place_bounds hq).2.2.1
  · -- it could only end with the keyword if that were a BY
    have hclauses : k ∈ Keyword.clauses := by
      revert hk
      cases k <;> decide
    have hnotBy : w.spells "by" = false := not_by_of_opening hclauses hspells
    rw [hend] at hlt ⊢
    rcases place_stop hq hw hlt with hstop | ⟨-, hby⟩
    · exact hstop
    · rw [hnotBy] at hby
      cases hby

/-- The keyword that limits the rows is no WHERE. -/
theorem clauseEnd_paging_ne (h : locate countAlias text = .ok site) {w : Word}
    (hw : w ∈ (Outline.of text).words) (hwhere : w.spells "where" = true) :
    clauseEnd text Keyword.paging site.scope ≠ w.before := by
  have hwb := word_bounds hw
  have hnone : ∀ k ∈ Keyword.paging, spelled (bytes k.opening) "where" = false := by
    decide +kernel
  rcases clauseEnd_paging h with ⟨-, hend⟩ | ⟨k, hk, v, hv, -, hend, hspells, -⟩
  · omega
  have hvb := word_bounds hv
  rcases word_trichotomy hv hw with rfl | hlt | hlt
  · have hsame := spelled_unique hspells hwhere
    rw [hnone k hk] at hsame
    cases hsame
  · omega
  · omega

/-- Sort columns behind a predicate leave its end where it is. -/
theorem Around.follows_orderEdits (hbalanced : Balanced text)
    (h : locate countAlias text = .ok site) (hr : Around text site order front a) {e : Edit}
    (he : e ∈ site.orderEdits order) (hle : clauseEnd text Keyword.afterWhere a ≤ e.position) :
    Follows text Keyword.afterWhere a e := by
  have hparted := parted_orderEdits e he
  obtain ⟨hempty, -⟩ := text_of_mem_orderEdits he
  rcases orderEdits_cases h hempty with ⟨-, hedits⟩ | ⟨present, hpresent, -, hedits⟩
  · rw [hedits, List.mem_singleton] at he
    subst he
    dsimp only at hle
    rcases Nat.lt_or_eq_of_le hle with hlt | heq
    · refine .behind (joint_clauseEnd hbalanced _ _) hparted hlt (clauseEnd_le_codeEnd _ _ _)
        fun q hq hbefore => stop_le_clauseEnd_paging h hq ?_
      omega
    · exact .opens heq.symm fun v => opens_orderBy (by decide) _ v
  · rw [hedits, List.mem_singleton] at he
    subst he
    have hmem := hr.places present hpresent hle
    have hend := clauseEnd_le hmem
    have hbounds := place_bounds hmem
    obtain ⟨A, o, b, B, hws, -, -, rfl, -⟩ := place_orderBy hpresent
    have hbMem : b ∈ (Outline.of text).words := by simp [hws]
    have hoMem : o ∈ (Outline.of text).words := by simp [hws]
    have hnext := le_before_of_mem_back hws List.mem_cons_self
    have hob := word_bounds hoMem
    have hbb := word_bounds hbMem
    refine .behind (joint_stop hbMem) hparted (by dsimp only at hend hbounds ⊢; omega) hbb.2.2
      fun q hq hbefore => ?_
    dsimp only at hend
    rcases place_stop hq hbMem (by omega) with hstop | ⟨hstop, -⟩
    · dsimp only
      omega
    · exact Nat.le_of_eq hstop

theorem Around.follows (hbalanced : Balanced text) (h : locate countAlias text = .ok site)
    (hr : Around text site order front a) (limit : Limit) :
    ∀ e ∈ site.orderEdits (site.latter order) ++ limit.edits (Outline.of text).codeEnd,
      Follows text Keyword.afterWhere a e := by
  intro e he
  rcases List.mem_append.1 he with he | he
  · have hle := hr.le_latter e he
    unfold Site.latter at he
    split at he
    · cases he
    · exact hr.follows_orderEdits hbalanced h he hle
  · exact follows_limit hbalanced limit a e he

/-! ## Names -/

/-- No name in a composed statement is taken for the WHERE of its predicate, or for a FROM in front
of that. -/
structure Unmistaken (site : Site) (countAlias : String) (order : OrderBy) : Prop where
  column : site.outline.selectsFrom = true ∨ spelled (bytes countAlias) "where" = false
  former : site.SortsFirst order → ∀ t ∈ order.leading, spelled t "where" = false
  latter : ¬site.SortsFirst order → site.outline.selectsFrom = true ∨
    spelled (bytes countAlias) "from" = true ∨ ∀ t ∈ order.leading, spelled t "from" = false

instance (site : Site) (countAlias : String) (order : OrderBy) :
    Decidable (site.Unmistaken countAlias order) :=
  decidable_of_iff ((site.outline.selectsFrom = true ∨ spelled (bytes countAlias) "where" = false) ∧
      (site.SortsFirst order → ∀ t ∈ order.leading, spelled t "where" = false) ∧
      (¬site.SortsFirst order → site.outline.selectsFrom = true ∨
        spelled (bytes countAlias) "from" = true ∨ ∀ t ∈ order.leading, spelled t "from" = false))
    ⟨fun h => ⟨h.1, h.2.1, h.2.2⟩, fun h => ⟨h.column, h.former, h.latter⟩⟩

theorem unsorted_where : Unsorted "where" := ⟨by decide +kernel, by decide +kernel⟩

theorem unsorted_from : Unsorted "from" := ⟨by decide +kernel, by decide +kernel⟩

theorem seam_limit (u : List UInt8) (limit : Limit) :
    Seam u (if limit.isBounded then bytes (" " ++ limit.render) else []) := by
  refine .of_head fun b hb => ?_
  split at hb
  · rw [bytes_append] at hb
    obtain rfl : Ascii.space = b := Option.some.inj hb
    rfl
  · cases hb

theorem not_from_limit (limit : Limit) :
    ∀ t ∈ topWords (if limit.isBounded then bytes (" " ++ limit.render) else []),
      spelled t "from" = false := by
  cases limit with
  | unbounded => simp [Limit.isBounded]
  | bounded limit offset =>
    have hname : ∃ c ∈ (bytes "from").head?, Ascii.isLower (Ascii.toLower c) = true := by
      decide +kernel
    simp only [Limit.isBounded, ↓reduceIte, topWords_limit, List.mem_cons, List.not_mem_nil,
      or_false]
    rintro t (rfl | rfl | rfl | rfl)
    · decide +kernel
    · exact not_spelled_of_head hname (head_numeral limit)
    · decide +kernel
    · exact not_spelled_of_head hname (head_numeral offset)

section

variable (hbalanced : Balanced text) (h : locate countAlias text = .ok site)
  (horder : ∀ c ∈ order.columns, Identifier.isQualified c = true)
  (hr : Around text site order front a) (hun : site.Unmistaken countAlias order)

include hbalanced h horder hr hun

/-- None of the words from the begin of the clauses on is WHERE, up to the WHERE of the
predicate. -/
theorem Around.not_where {b : Nat} (hb : Joint text b) (hscope : site.scope ≤ b) (hle : b ≤ front)
    (hes : ∀ e ∈ site.orderEdits (site.former order), b ≤ e.position) :
    ∀ t ∈ topWords (weave (text.take front) b (site.orderEdits (site.former order))),
      spelled t "where" = false := by
  have hbase : ∀ t ∈ textsBetween text b front, spelled t "where" = false := by
    intro t ht
    obtain ⟨w, hw, hbw, hfront, rfl⟩ := mem_textsBetween.1 ht
    exact hr.noWhere w hw (by omega) hfront
  have hleading : ∀ t ∈ (site.former order).leading, spelled t "where" = false := by
    unfold Site.former
    split
    · rename_i hsorts
      exact hun.former hsorts
    · simp [OrderBy.leading, OrderBy.columns]
  exact not_spelled_orderEdits unsorted_where hbalanced h
    (fun c hc => horder c (columns_former site order hc)) hb hr.joint hle
    (fun e he => ⟨hes e he, hr.former_le e he⟩) hbase hleading

/-- If the base and the count column have no FROM, there is none behind the predicate. -/
theorem Around.not_from (hfrom : (Outline.of text).selectsFrom = false)
    (hcolumn : spelled (bytes countAlias) "from" = false) (limit : Limit) :
    ∀ t ∈ topWords (weave (text.take (Outline.of text).codeEnd)
        (clauseEnd text Keyword.afterWhere a)
        (site.orderEdits (site.latter order) ++ limit.edits (Outline.of text).codeEnd)),
      spelled t "from" = false := by
  have hjoint := joint_clauseEnd hbalanced Keyword.afterWhere a
  have hjointEnd := joint_codeEnd hbalanced
  have hend := clauseEnd_le_codeEnd text Keyword.afterWhere a
  have hbase : ∀ t ∈ textsBetween text (clauseEnd text Keyword.afterWhere a)
      (Outline.of text).codeEnd, spelled t "from" = false := by
    intro t ht
    obtain ⟨w, hw, haw, -, rfl⟩ := mem_textsBetween.1 ht
    have hscope := hr.scope_le
    have hle := hr.le
    exact (no_from h hfrom).2 w hw (by omega)
  have hleading : ∀ t ∈ (site.latter order).leading, spelled t "from" = false := by
    unfold Site.latter
    split
    · simp [OrderBy.leading, OrderBy.columns]
    · rename_i hsorts
      rcases hun.latter hsorts with hselects | halias | hleading
      · rw [outline_eq h, hfrom] at hselects
        cases hselects
      · rw [hcolumn] at halias
        cases halias
      · exact hleading
  have hes : ∀ e ∈ site.orderEdits (site.latter order),
      clauseEnd text Keyword.afterWhere a ≤ e.position ∧ e.position ≤ (Outline.of text).codeEnd :=
    fun e he => ⟨hr.le_latter e he, (fits_orderEdits hbalanced h he).le_codeEnd⟩
  have hqualified : ∀ c ∈ (site.latter order).columns, Identifier.isQualified c = true :=
    fun c hc => horder c (columns_latter site order hc)
  have hsorted := not_spelled_orderEdits unsorted_from hbalanced h hqualified hjoint hjointEnd hend
    hes hbase hleading
  rw [weave_append hend (Nat.le_refl _) (fun e he => (hes e he).2)
      fun e he => (limit.parted_edits _ e he).1,
    weave_codeEnd, topWords_append (after_orderEdits hbalanced h hqualified hjoint.cut
      hjointEnd.cut hend hes) (seam_limit _ limit), List.forall_mem_append]
  exact ⟨hsorted, not_from_limit limit⟩

end

/-! ## In front of the predicate -/

/-- The statement in front of WHERE. -/
def heading (site : Site) (countAlias : String) (order : OrderBy) (text : List UInt8)
    (front : Nat) : List UInt8 :=
  weave (text.take front) 0 (site.countEdit countAlias :: site.orderEdits (site.former order))

theorem Around.heading_eq (hr : Around text site order front a) :
    site.heading countAlias order text front = text.take site.projection ++
      (bytes (site.countEdit countAlias).text ++
        weave (text.take front) site.projection (site.orderEdits (site.former order))) := by
  have htake : (text.take front).take site.projection = text.take site.projection := by
    rw [List.take_take, Nat.min_eq_left hr.projection_le]
  rw [heading, weave, List.drop_zero]
  exact congrArg (· ++ _) htake

theorem Around.le_former (h : locate countAlias text = .ok site)
    (hr : Around text site order front a) : ∀ e ∈ site.orderEdits (site.former order),
      site.projection ≤ e.position ∧ e.position ≤ front :=
  fun e he => ⟨projection_le_orderEdits h he, hr.former_le e he⟩

theorem Around.after_heading (hbalanced : Balanced text) (h : locate countAlias text = .ok site)
    (halias : Identifier.isPlain countAlias = true)
    (horder : ∀ c ∈ order.columns, Identifier.isQualified c = true)
    (hr : Around text site order front a) :
    ({} : Reader).after (site.heading countAlias order text front) = {} := by
  have hcount : Addable (bytes (site.countEdit countAlias).text) := addable_countEdit halias
  have hprojection := joint_projection h
  have hneutral : Reader.Neutral (text.take site.projection) :=
    Cut.neutral_between hbalanced (joint_zero text).cut hprojection.cut (Nat.zero_le _)
  have hrest := after_orderEdits hbalanced h
    (fun c hc => horder c (columns_former site order hc)) hprojection.cut hr.joint.cut
    hr.projection_le (hr.le_former h)
  rw [hr.heading_eq]
  exact (Edit.after_woven hneutral hcount.fit hcount.neutral.closed).trans hrest

/-- In front of WHERE the statement ends as its base does there, unless it ends with an edit. -/
theorem Around.getLast?_heading (h : locate countAlias text = .ok site)
    (hr : Around text site order front a) :
    (∀ b ∈ (site.heading countAlias order text front).getLast?, isSeparator b = true) ∨
      (site.heading countAlias order text front).getLast? = (text.take front).getLast? := by
  have hlength := hr.joint.cut.le
  have hne : bytes (site.countEdit countAlias).text ≠ [] := by
    rw [countEdit, bytes_append]
    exact List.append_ne_nil_of_right_ne_nil _ (by decide)
  cases hformer : site.orderEdits (site.former order) with
  | nil =>
    rw [heading, hformer]
    exact getLast?_weave [] hlength (Nat.zero_le _) hr.projection_le (by simp) hne
      fun _ => getLast?_countEdit site countAlias
  | cons e es =>
    obtain rfl : es = [] := by
      have hone := orderEdits_length site (site.former order)
      rw [hformer, List.length_cons] at hone
      exact List.eq_nil_of_length_eq_zero (by omega)
    have he : e ∈ site.orderEdits (site.former order) := hformer ▸ List.mem_cons_self
    obtain ⟨hprojection, hle⟩ := hr.le_former h e he
    obtain ⟨b, hb, -⟩ := parted_orderEdits e he
    have hsorts : site.SortsFirst order := by
      refine Decidable.by_contra fun hnot => ?_
      rw [Site.former, if_neg hnot] at he
      cases he
    obtain ⟨w, hw, hwhere, hfront, -⟩ := hr.former hsorts
    rw [heading, hformer]
    refine getLast?_weave [site.countEdit countAlias] hlength (Nat.zero_le _) hle
      (by simpa [countEdit] using hprojection) (List.ne_nil_of_mem (List.mem_of_head? hb))
      fun heq => ?_
    obtain ⟨hempty, -⟩ := text_of_mem_orderEdits he
    rcases orderEdits_cases h hempty with ⟨-, hedits⟩ | ⟨present, -, -, hedits⟩
    · -- new sort columns go in front of another word than WHERE
      rw [hedits] at hformer
      obtain rfl := (List.cons.inj hformer).1
      exact absurd (heq.trans hfront) (clauseEnd_paging_ne h hw hwhere)
    · rw [hedits] at hformer
      obtain rfl := (List.cons.inj hformer).1
      intro c hc
      rw [bytes_append, List.getLast?_append] at hc
      obtain rfl : (44 : UInt8) = c := Option.some.inj hc
      rfl

/-- The words between SELECT and WHERE lead to the predicate. -/
theorem Around.leadsToWhere (hbalanced : Balanced text) (h : locate countAlias text = .ok site)
    (horder : ∀ c ∈ order.columns, Identifier.isQualified c = true)
    (hr : Around text site order front a) (hun : site.Unmistaken countAlias order)
    {A B C : List Word} {select column : Word}
    (hcounted : Counted countAlias (site.heading countAlias order text front) A select B column C)
    (hC : C.map (·.text) =
      topWords (weave (text.take front) site.projection (site.orderEdits (site.former order))))
    {connectives : List (List UInt8)}
    (hconnectives : ∀ t ∈ connectives, ∃ c : Connective, t = bytes c.keyword) (limit : Limit) :
    LeadsToWhere ((B ++ column :: C).map (·.text)) (connectives ++
      topWords (weave (text.take (Outline.of text).codeEnd)
        (clauseEnd text Keyword.afterWhere a)
        (site.orderEdits (site.latter order) ++ limit.edits (Outline.of text).codeEnd))) := by
  have hjoint := joint_projection h
  have hcolumn : column.text = bytes countAlias := hcounted.isColumn
  have hB : ∀ t ∈ B.map (·.text), spelled t "from" = false ∧ spelled t "where" = false := by
    intro t ht
    obtain ⟨w, hw, rfl⟩ := List.mem_map.1 ht
    exact hcounted.noKeyword w hw
  rw [List.map_append, List.map_cons, hC, hcolumn]
  cases hfrom : (Outline.of text).selectsFrom with
  | true =>
    obtain ⟨table, htable, hspells, hscope, hprojection, halias, hbefore⟩ := exists_from h hfrom
    have htb := word_bounds htable
    have hbeforeTable := joint_before htable
    have hscopeJoint : Joint text site.scope := hscope ▸ joint_stop htable
    have hle : site.projection ≤ site.scope := by omega
    have hone : textsBetween text table.before site.scope = [table.text] := by
      rw [hscope, textsBetween, wordsBetween_word htable]
      rfl
    rw [topWords_weave_split hjoint hscopeJoint hle hr.scope_le fun e he =>
        ⟨scope_le_orderEdits h he, parted_orderEdits e he⟩,
      textsBetween_append hbeforeTable hprojection (by omega), hone]
    have hformer : ∀ t ∈ B.map (·.text) ++ bytes countAlias ::
        textsBetween text site.projection table.before, spelled t "from" = false := by
      rw [List.forall_mem_append, List.forall_mem_cons]
      refine ⟨fun t ht => (hB t ht).1, halias, fun t ht => ?_⟩
      obtain ⟨w, hw, hstart, hstop, rfl⟩ := mem_textsBetween.1 ht
      exact hbefore w hw hstart hstop
    exact .behindFrom (by simp) hformer hspells (hr.not_where hbalanced h horder hun hscopeJoint
      (Nat.le_refl _) hr.scope_le fun e he => scope_le_orderEdits h he)
  | false =>
    obtain ⟨hscope, -⟩ := no_from h hfrom
    have halias : spelled (bytes countAlias) "where" = false := by
      rcases hun.column with hselects | halias
      · rw [outline_eq h, hfrom] at hselects
        cases hselects
      · exact halias
    refine .of_noWhere ?_ fun hnone => ?_
    · rw [List.forall_mem_append, List.forall_mem_cons]
      exact ⟨fun t ht => (hB t ht).2, halias, hr.not_where hbalanced h horder hun hjoint hscope
        hr.projection_le fun e he => (hr.le_former h e he).1⟩
    · rw [List.forall_mem_append]
      refine ⟨fun t ht => ?_, hr.not_from hbalanced h horder hun hfrom (hnone _ (by simp)) limit⟩
      obtain ⟨c, rfl⟩ := hconnectives t ht
      cases c <;> decide +kernel

/-- The front of the statement ends with the WHERE of its predicate. -/
theorem Around.words_lead (hbalanced : Balanced text) (h : locate countAlias text = .ok site)
    (halias : Identifier.isPlain countAlias = true)
    (horder : ∀ c ∈ order.columns, Identifier.isQualified c = true)
    (hr : Around text site order front a) {lead : List UInt8} {x : Word}
    (hlead : Lead text front lead x) :
    Finished (site.heading countAlias order text front ++ lead) ∧
      ∃ x', (Outline.of (site.heading countAlias order text front ++ lead)).words =
          (Outline.of (site.heading countAlias order text front)).words ++ [x'] ∧
        x'.spells "where" = true ∧
        x'.stop = (site.heading countAlias order text front ++ lead).length := by
  have hheading := hr.after_heading hbalanced h halias horder
  have hseam : Seam (site.heading countAlias order text front) lead :=
    hlead.apart _ (hr.getLast?_heading h)
  have hne : lead ≠ [] := by
    rintro rfl
    have hx : x ∈ (Outline.of []).words := by simp [hlead.words]
    have := word_bounds hx
    have hstop : x.stop = 0 := hlead.stop
    omega
  refine ⟨.append hheading hseam hne hlead.finished,
    x.behind (site.heading countAlias order text front).length
      (Outline.of (site.heading countAlias order text front)).codeEnd, ?_, hlead.isWhere, ?_⟩
  · rw [Outline.words_append hheading hseam, hlead.words, List.map_singleton]
  · rw [List.length_append, ← hlead.stop]
    rfl

/-- A predicate between its WHERE and the clauses behind it is the predicate of the statement. -/
theorem Around.predicateText?_heading (hbalanced : Balanced text)
    (h : locate countAlias text = .ok site) (halias : Identifier.isPlain countAlias = true)
    (horder : ∀ c ∈ order.columns, Identifier.isQualified c = true)
    (hr : Around text site order front a) (hun : site.Unmistaken countAlias order)
    {lead blanks conjunction : List UInt8} {x : Word} (hlead : Lead text front lead x)
    (hblank : ∀ b ∈ blanks, Lexeme.isBlankByte b = true) (henclosed : Enclosed conjunction)
    (hconnectives : ∀ t ∈ topWords conjunction, ∃ c : Connective, t = bytes c.keyword)
    (limit : Limit) :
    predicateText? ((site.heading countAlias order text front ++ lead) ++
      ((blanks ++ conjunction) ++ weave (text.take (Outline.of text).codeEnd)
        (clauseEnd text Keyword.afterWhere a)
        (site.orderEdits (site.latter order) ++ limit.edits (Outline.of text).codeEnd))) =
      some (blanks ++ conjunction) := by
  obtain ⟨A, select, B, column, C, hcounted, -, hC⟩ := counted_of_locate h halias
    (weave (text.take front) site.projection (site.orderEdits (site.former order)))
  rw [← hr.heading_eq] at hcounted
  obtain ⟨hfront, x', hwords, hwhere, hstop⟩ :=
    hr.words_lead hbalanced h halias horder hlead
  rw [hcounted.words, List.append_assoc, List.cons_append] at hwords
  obtain ⟨hpredicate, htexts⟩ := henclosed.behind_blanks hblank
  refine predicateText?_of_texts hfront hwords hcounted.noSelect hcounted.isSelect hwhere hstop
    hpredicate ?_ ?_ ?_
  · rw [htexts]
    intro t ht
    obtain ⟨c, rfl⟩ := hconnectives t ht
    exact c.mute_keyword
  · exact clauseEnd_weave hbalanced fun e he =>
      hr.follows hbalanced h limit e (List.mem_of_head? he)
  · rw [htexts]
    exact hr.leadsToWhere hbalanced h horder hun hcounted hC hconnectives limit

end Site

/-! ## Composed statements -/

open Site in
/-- The predicate of a composed statement. -/
theorem predicateText?_of_compose {dialect : Dialect} {countAlias base : String}
    {baseParams : List Value} {clause : WhereClause} {order : OrderBy} {limit : Limit}
    {c : Composed} {site : Site} (hbalanced : Balanced (bytes base))
    (hblanks : PlainBlanks (bytes base)) (halias : Identifier.isPlain countAlias = true)
    (hclause : clause.isEmpty = false)
    (hcolumns : ∀ column ∈ clause.columns, Identifier.isQualified column = true)
    (horder : ∀ column ∈ order.columns, Identifier.isQualified column = true)
    (h : compose dialect countAlias base baseParams clause order limit = .ok c)
    (hsite : locate countAlias (bytes base) = .ok site) (hun : site.Unmistaken countAlias order) :
    ∃ blanks conjunction, (∀ b ∈ blanks, Lexeme.isBlankByte b = true) ∧
      Conjoins dialect (predicateTokens dialect (bytes base)) clause
        (clause.render dialect (baseParams.length + 1)).sql conjunction ∧
      predicateText? (bytes c.sql) = some (blanks ++ conjunction) := by
  obtain ⟨site', hsite', hsql⟩ := weave_of_compose h
  obtain rfl : site = site' := Except.ok.inj (hsite.symm.trans hsite')
  obtain ⟨henclosed, hwords⟩ :=
    clause.topWords_render dialect (baseParams.length + 1) hclause hcolumns
  generalize (clause.render dialect (baseParams.length + 1)).sql = predicate
    at henclosed hwords hsql ⊢
  obtain ⟨front, a, lead, x, blanks, conjunction, hr, hlead, hparts⟩ :=
    exists_parts hbalanced hblanks hsite hclause dialect predicate order
  refine ⟨blanks, conjunction, hparts.blank, hparts.conjoins, ?_⟩
  have hbehind : ∀ e ∈ site.orderEdits (site.latter order) ++
      limit.edits (Outline.of (bytes base)).codeEnd,
        clauseEnd (bytes base) Keyword.afterWhere a ≤ e.position := by
    rw [List.forall_mem_append]
    exact ⟨hr.le_latter, fun e he => Nat.le_trans (clauseEnd_le_codeEnd _ _ _)
      (limit.parted_edits _ e he).1⟩
  have hfront : ∀ e ∈ site.countEdit countAlias :: site.orderEdits (site.former order),
      e.position ≤ front := by
    rw [List.forall_mem_cons]
    exact ⟨hr.projection_le, hr.former_le⟩
  have hback : ∀ e ∈ site.predicateEdits clause predicate ++
      (site.orderEdits (site.latter order) ++ limit.edits (Outline.of (bytes base)).codeEnd),
        front ≤ e.position := by
    rw [List.forall_mem_append]
    exact ⟨hparts.within, fun e he => Nat.le_trans hr.le (hbehind e he)⟩
  have hstatement : bytes c.sql = (site.heading countAlias order (bytes base) front ++ lead) ++
      ((blanks ++ conjunction) ++ Edit.weave ((bytes base).take (Outline.of (bytes base)).codeEnd)
        (clauseEnd (bytes base) Keyword.afterWhere a) (site.orderEdits (site.latter order) ++
          limit.edits (Outline.of (bytes base)).codeEnd)) := by
    have hedits : site.countEdit countAlias :: (site.orderEdits (site.former order) ++
          (site.predicateEdits clause predicate ++ site.orderEdits (site.latter order))) ++
            limit.edits (Outline.of (bytes base)).codeEnd =
        (site.countEdit countAlias :: site.orderEdits (site.former order)) ++
          (site.predicateEdits clause predicate ++ (site.orderEdits (site.latter order) ++
            limit.edits (Outline.of (bytes base)).codeEnd)) := by
      simp only [List.cons_append, List.append_assoc]
    rw [hsql, hr.sort hsite hparts.ends, hedits,
      Edit.weave_append (Nat.zero_le _) hr.front_le hfront hback, hparts.weave _ hbehind]
    simp only [List.append_assoc]
    rfl
  rw [hstatement]
  exact hr.predicateText?_heading hbalanced hsite halias horder hun hlead hparts.blank
    (hparts.conjoins.enclosed henclosed) (hparts.conjoins.topWords_connective henclosed hwords)
    limit

end Listing
