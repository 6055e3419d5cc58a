import Listing.Proofs.ClauseOrder

/-!
# Composing twice

A statement that was composed is recognised by its count column. The column stands directly behind
SELECT and its quantifier (`Site.Counted`), and a composer looks for it up to the first FROM. So a
second composition is refused if and only if a FROM stands behind SELECT (`Site.Counted.locate_iff`,
`compose_again_iff`): a statement that selects from nothing is composed once more.
-/

namespace Listing

open Text

/-- Whether a FROM stands behind the first SELECT of a statement. -/
def Outline.selectsFrom (o : Outline) : Bool :=
  (o.first? .select 0).any fun select => (o.first? .from select.stop).isSome

namespace Site

open Outline Edit

variable {countAlias : String} {text : List UInt8} {site : Site} {A B C : List Word}
  {select column : Word}

/-- The words of a statement that has a count column: SELECT for the first time, some words without
FROM and WHERE, of which the first is not DISTINCT, and the name of the column. -/
structure Counted (countAlias : String) (text : List UInt8) (A : List Word) (select : Word)
    (B : List Word) (column : Word) (C : List Word) : Prop where
  words : (Outline.of text).words = A ++ select :: (B ++ column :: C)
  noSelect : ∀ w ∈ A, w.spells "select" = false
  isSelect : select.spells "select" = true
  noKeyword : ∀ w ∈ B, w.spells "from" = false ∧ w.spells "where" = false
  noDistinct : ∃ w ∈ B.head?, w.spells "distinct" = false
  isColumn : column.text = bytes countAlias

namespace Counted

theorem first_select (h : Counted countAlias text A select B column C) :
    (Outline.of text).first? .select 0 = some ⟨select.start, select.stop, select.before⟩ := by
  rw [first?, h.words]
  exact head?_places_single rfl (fun x hx _ => h.noSelect x hx) (Nat.zero_le _) h.isSelect

/-- The first FROM behind SELECT is the name of the count column or stands behind it. -/
theorem column_stop_le (h : Counted countAlias text A select B column C) {place : Place}
    (hplace : (Outline.of text).first? .from select.stop = some place) :
    select.stop ≤ column.start ∧ column.stop ≤ place.stop := by
  have hbounds := fun w (hw : w ∈ (Outline.of text).words) => word_bounds hw
  rw [h.words] at hbounds
  have hcolumn := hbounds column (by simp)
  have hbehindColumn := le_before_of_mem_back h.words (v := column) (by simp)
  refine ⟨by omega, ?_⟩
  have hsplit : (Outline.of text).words = (A ++ select :: B) ++ column :: C := by simp [h.words]
  rw [first?, places_behind_word h.words,
    places_single_append rfl fun x hx _ => (h.noKeyword x hx).1] at hplace
  obtain ⟨X, w, Y, hws, rfl, -⟩ := exists_of_head?_places rfl hplace
  have hw : w ∈ column :: C := by simp [hws]
  rcases List.mem_cons.1 hw with rfl | hw
  · exact Nat.le_refl _
  · have := le_before_of_mem_back hsplit hw
    have := hbounds w (by simp [hw])
    dsimp only
    omega

/-- What follows SELECT is not DISTINCT. -/
theorem quantifier (h : Counted countAlias text A select B column C) :
    (wordBehind? (Outline.of text) select.stop).any (·.spells "distinct") = false := by
  have hws : (Outline.of text).words = (A ++ [select]) ++ ((B ++ column :: C) ++ []) := by
    rw [h.words]
    simp
  have hbetween : (Outline.of text).wordsBetween select.stop (Outline.of text).codeEnd =
      B ++ column :: C := by
    refine wordsBetween_of_append hws (fun v hv => ?_) (fun v hv => ?_) (by simp)
    · rcases List.mem_append.1 hv with hv | hv
      · have := stop_le_of_mem_front h.words hv
        have hselectMem : select ∈ (Outline.of text).words := by simp [h.words]
        have := word_bounds hselectMem
        omega
      · rw [List.mem_singleton.1 hv]
    · have hle := le_before_of_mem_back h.words hv
      have hmem : v ∈ (Outline.of text).words := by
        rw [h.words]
        exact List.mem_append_right A (List.mem_cons_of_mem select hv)
      have hbounds := word_bounds hmem
      omega
  obtain ⟨w, hw, hnot⟩ := h.noDistinct
  rw [wordBehind?, hbetween, List.head?_append, Option.mem_def.1 hw, Option.some_or,
    Option.filter_some]
  split
  · simpa using hnot
  · rfl

/-- The count column is found if and only if there is a FROM behind SELECT. -/
theorem locate_iff (h : Counted countAlias text A select B column C) :
    locate countAlias text = .error .alreadyComposed ↔ (Outline.of text).selectsFrom = true := by
  have hcolumn : column ∈ (Outline.of text).words := by simp [h.words]
  simp only [locate, selectsFrom, h.first_select, h.quantifier, Option.any_some,
    Bool.false_eq_true, ↓reduceIte]
  cases hplace : (Outline.of text).first? .from select.stop with
  | none =>
    have hnone : (Outline.of text).wordsBetween select.stop select.stop = [] := by
      refine List.filter_eq_nil_iff.2 fun w hw => ?_
      have := word_bounds hw
      simp only [decide_eq_true_eq]
      omega
    simp [hnone]
  | some place =>
    have hfound : ((Outline.of text).wordsBetween select.stop place.stop).any
        (·.spells countAlias) = true :=
      List.any_eq_true.2 ⟨column, mem_wordsBetween.2 ⟨hcolumn, h.column_stop_le hplace⟩,
        by simp [Word.spells, h.isColumn, sameIgnoringCase]⟩
    simp [hfound]

theorem selectsFrom_of_mem (h : Counted countAlias text A select B column C) {w : Word}
    (hw : w ∈ C) (hfrom : w.spells "from" = true) : (Outline.of text).selectsFrom = true := by
  have hle := le_before_of_mem_back h.words (v := w) (by simp [hw])
  have hmem : w ∈ (Outline.of text).words := by simp [h.words, hw]
  have hbounds := word_bounds hmem
  have hbehind : select.stop ≤ w.start := by omega
  have hplace := mem_places_of_word (k := .from) rfl hmem hbehind hfrom
  rw [selectsFrom, h.first_select, Option.any_some, first?, List.isSome_head?]
  cases hplaces : places [.from] select.stop (Outline.of text).words with
  | nil =>
    rw [hplaces] at hplace
    cases hplace
  | cons => exact List.cons_ne_nil _ _

end Counted

/-- The word that directly follows another one is the first of those behind it. -/
theorem eq_cons_of_wordBehind? {w v : Word} {A R : List Word}
    (hws : (Outline.of text).words = A ++ w :: R)
    (h : wordBehind? (Outline.of text) w.stop = some v) : ∃ R', R = v :: R' := by
  obtain ⟨hv, hle, hlater⟩ := wordBehind?_spec h
  have hbounds := fun u (hu : u ∈ (Outline.of text).words) => word_bounds hu
  rw [hws] at hv hlater hbounds
  have hwb := hbounds w (by simp)
  have hvR : v ∈ R := by
    rcases List.mem_append.1 hv with hv | hv
    · have := stop_le_of_mem_front hws hv
      have := hbounds v (by simp [hv])
      omega
    · rcases List.mem_cons.1 hv with rfl | hv
      · omega
      · exact hv
  cases R with
  | nil => cases hvR
  | cons u R =>
    have hu := le_before_of_mem_back hws List.mem_cons_self
    have hsplit : (Outline.of text).words = (A ++ [w]) ++ u :: R := by simp [hws]
    have hub := hbounds u (by simp)
    rcases hlater u (by simp) (by omega) with rfl | hlt
    · exact ⟨R, rfl⟩
    · rcases List.mem_cons.1 hvR with rfl | hvR
      · exact ⟨R, rfl⟩
      · have := le_before_of_mem_back hsplit hvR
        have := hbounds v (by simp [hvR])
        omega

/-- The count column goes behind SELECT, or behind its quantifier ALL. -/
theorem words_projection (h : locate countAlias text = .ok site) :
    ∃ A select Q R, (Outline.of text).words = A ++ select :: (Q ++ R) ∧
      (∀ w ∈ A, w.spells "select" = false) ∧ select.spells "select" = true ∧
      (∀ w ∈ Q, w.spells "all" = true) ∧
      (Outline.of (text.take site.projection)).words = A ++ select :: Q ∧
      (Outline.of text).first? .select 0 = some ⟨select.start, select.stop, select.before⟩ := by
  obtain ⟨place, hplace, -, -, -, hprojection, -⟩ := locate_ok h
  obtain ⟨A, select, R, hwords, rfl, -, hselect, hA⟩ := exists_of_head?_places rfl hplace
  have hA' : ∀ w ∈ A, w.spells "select" = false := fun w hw => hA w hw (Nat.zero_le _)
  cases hquantifier : (wordBehind? (Outline.of text) select.stop).filter (·.spells "all") with
  | none =>
    have hstop : site.projection = select.stop := by simpa [hquantifier] using hprojection
    exact ⟨A, select, [], R, hwords, hA', hselect, by simp, hstop ▸ words_take_stop hwords, hplace⟩
  | some w =>
    obtain ⟨hbehind, hall⟩ := Option.filter_eq_some_iff.1 hquantifier
    have hstop : site.projection = w.stop := by simpa [hquantifier] using hprojection
    obtain ⟨R, rfl⟩ := eq_cons_of_wordBehind? hwords hbehind
    have hsplit : (Outline.of text).words = (A ++ [select]) ++ w :: R := by
      rw [hwords]
      simp
    refine ⟨A, select, [w], R, hwords, hA', hselect, by simpa using hall, ?_, hplace⟩
    rw [hstop, words_take_stop hsplit]
    simp

/-- A statement has the count column behind SELECT and its quantifier, whatever follows. -/
theorem counted_of_locate (h : locate countAlias text = .ok site)
    (halias : Identifier.isPlain countAlias = true) (rest : List UInt8) :
    ∃ A select B column C, Counted countAlias
        (text.take site.projection ++ (bytes (site.countEdit countAlias).text ++ rest))
        A select B column C ∧
      (Outline.of text).first? .select 0 = some ⟨select.start, select.stop, select.before⟩ ∧
      C.map (·.text) = topWords rest := by
  obtain ⟨A, select, Q, R, -, hA, hselect, hQ, hfront, hplace⟩ := words_projection h
  have hseam : Seam (text.take site.projection)
      (bytes (site.countEdit countAlias).text ++ rest) := by
    obtain ⟨b, hb, hsep⟩ := parted_countEdit site countAlias
    refine .of_head fun c hc => ?_
    rw [List.head?_append, Option.mem_def.1 hb, Option.some_or, Option.mem_some] at hc
    rwa [← hc]
  have hwords := Outline.words_append (joint_projection h).cut.reads hseam
  have hW := texts_behind (text.take site.projection).length
    (Outline.of (text.take site.projection)).codeEnd
      (Outline.of (bytes (site.countEdit countAlias).text ++ rest)).words
  change _ = topWords _ at hW
  rw [topWords_countEdit_append halias] at hW
  generalize List.map (Word.behind _ _) _ = W at hwords hW
  obtain ⟨S, W, rfl, hS, hrest⟩ := List.map_eq_append_iff.1 hW
  obtain ⟨column, C, rfl, hcolumn, hC⟩ := List.map_eq_cons_iff.1 hrest
  refine ⟨A, select, Q ++ S, column, C, ⟨?_, hA, hselect, fun w hw => ?_, ?_, hcolumn⟩, hplace, hC⟩
  · rw [hwords, hfront]
    simp
  · rcases List.mem_append.1 hw with hw | hw
    · exact ⟨Word.not_spells (hQ w hw) (by decide), Word.not_spells (hQ w hw) (by decide)⟩
    · have hno : ∀ t ∈ [bytes "count", bytes "OVER", bytes "AS"],
          sameIgnoringCase t (bytes "from") = false ∧
            sameIgnoringCase t (bytes "where") = false := by
        decide +kernel
      exact hno w.text (hS ▸ List.mem_map_of_mem hw)
  · cases Q with
    | cons w Q =>
      exact ⟨w, rfl, Word.not_spells (hQ w List.mem_cons_self) (by decide)⟩
    | nil =>
      obtain ⟨w, S, rfl, hw, -⟩ := List.map_eq_cons_iff.1 hS
      refine ⟨w, rfl, ?_⟩
      rw [Word.spells, hw]
      decide +kernel

/-- What a base selects from, if it does: its first FROM behind SELECT, which is not the name of the
count column. -/
theorem exists_from (h : locate countAlias text = .ok site)
    (hfrom : (Outline.of text).selectsFrom = true) :
    ∃ table ∈ (Outline.of text).words, table.spells "from" = true ∧ site.scope = table.stop ∧
      site.projection ≤ table.before ∧ spelled (bytes countAlias) "from" = false ∧
      ∀ w ∈ (Outline.of text).words, site.projection ≤ w.start → w.stop ≤ table.before →
        w.spells "from" = false := by
  obtain ⟨select, hselect, -, -, hscope, -, hnone⟩ := locate_ok h
  obtain ⟨place, hplace⟩ : ∃ place, (Outline.of text).first? .from select.stop = some place := by
    rw [selectsFrom, hselect] at hfrom
    exact Option.isSome_iff_exists.1 hfrom
  obtain ⟨A, table, C, hwords, rfl, hle, htable, hfirst⟩ := exists_of_head?_places rfl hplace
  have hstop : site.scope = table.stop := by simpa [hplace] using hscope
  have hmem : table ∈ (Outline.of text).words := by simp [hwords]
  have hbounds := word_bounds hmem
  obtain ⟨v, -, hprojection, hselectStop, hlater⟩ := exists_projection_word h hselect
  have hquantifier : table.spells "all" = false := Word.not_spells htable (by decide)
  refine ⟨table, hmem, htable, hstop, hprojection ▸ hlater table hmem hle hquantifier, ?_,
    fun w hw hstart hend => ?_⟩
  · exact Word.not_spelled htable
      (List.any_eq_false.1 hnone table (mem_wordsBetween.2 ⟨hmem, hle, by omega⟩))
  · rw [hwords] at hw
    rcases List.mem_append.1 hw with hw | hw
    · exact hfirst w hw (by omega)
    · have hmemBehind : w ∈ (Outline.of text).words := by
        rw [hwords]
        exact List.mem_append_right A hw
      have hwb := word_bounds hmemBehind
      rcases List.mem_cons.1 hw with rfl | hw
      · omega
      · have := le_before_of_mem_back hwords hw
        omega

/-- A base that selects from nothing has no FROM from the begin of its clauses on, and none of its
clauses begins in front of the count column. -/
theorem no_from (h : locate countAlias text = .ok site)
    (hfrom : (Outline.of text).selectsFrom = false) :
    site.scope ≤ site.projection ∧
      ∀ w ∈ (Outline.of text).words, site.scope ≤ w.start → w.spells "from" = false := by
  obtain ⟨select, hselect, -, -, hscope, -⟩ := locate_ok h
  obtain ⟨v, -, hprojection, hselectStop, -⟩ := exists_projection_word h hselect
  rw [selectsFrom, hselect] at hfrom
  have hnone : (Outline.of text).first? .from select.stop = none := by
    rw [Option.any_some, Option.isSome_eq_false_iff, Option.isNone_iff_eq_none] at hfrom
    exact hfrom
  rw [hnone] at hscope
  have hstop : site.scope = select.stop := hscope
  refine ⟨by omega, fun w hw hle => Bool.eq_false_iff.2 fun hspells => ?_⟩
  rw [first?, List.head?_eq_none_iff] at hnone
  have hmem := mem_places_of_word (k := .from) rfl hw (hstop ▸ hle) hspells
  rw [hnone] at hmem
  cases hmem

/-- A FROM behind SELECT stays there, since nothing is inserted in front of its end but the count
column. -/
theorem from_mem_texts (h : locate countAlias text = .ok site)
    (hfrom : (Outline.of text).selectsFrom = true) {es : List Edit}
    (hes : ∀ e ∈ es, site.scope ≤ e.position ∧ e.Parted) :
    ∃ t ∈ topWords (weave (text.take (Outline.of text).codeEnd) site.projection es),
      sameIgnoringCase t (bytes "from") = true := by
  obtain ⟨table, hmem, htable, hstop, hbehind, -⟩ := exists_from h hfrom
  have hbounds := word_bounds hmem
  have hjoint : Joint text site.scope := hstop ▸ joint_stop hmem
  refine ⟨table.text, ?_, htable⟩
  rw [topWords_weave_split (joint_projection h) hjoint (by omega) (by omega) hes]
  exact List.mem_append_left _ (mem_textsBetween.2 ⟨table, hmem, by omega, by omega, rfl⟩)

end Site

section

variable {dialect : Dialect} {countAlias base : String} {baseParams : List Value}
  {clause : WhereClause} {order : OrderBy} {limit : Limit} {c : Composed}

open Site

/-- Nothing but the search for the count column says that a statement is composed already. -/
theorem compose_alreadyComposed_iff :
    compose dialect countAlias base baseParams clause order limit = .error .alreadyComposed ↔
      Site.locate countAlias (bytes base) = .error .alreadyComposed := by
  unfold compose
  cases hsite : Site.locate countAlias (bytes base) with
  | error e => simp [bind, Except.bind]
  | ok site =>
    simp only [bind, Except.bind, reduceCtorEq, iff_false]
    split
    · simp [throw, throwThe, MonadExceptOf.throw]
    · split <;> simp [throw, throwThe, MonadExceptOf.throw, pure, Except.pure]

/-- **A composed statement is composed again if and only if it has no FROM behind SELECT.** It has
one if its base has. -/
theorem compose_again_iff (halias : Identifier.isPlain countAlias = true)
    (h : compose dialect countAlias base baseParams clause order limit = .ok c) :
    ((Outline.of (bytes base)).selectsFrom = true → (Outline.of (bytes c.sql)).selectsFrom = true) ∧
      ∀ params clause' order' limit',
        compose dialect countAlias c.sql params clause' order' limit' = .error .alreadyComposed ↔
          (Outline.of (bytes c.sql)).selectsFrom = true := by
  obtain ⟨site, hsite, hweave⟩ := weave_of_compose h
  obtain ⟨es, hsort, -, hes⟩ := sort_edits hsite clause
    (clause.render dialect (baseParams.length + 1)).sql order
  have hparted : ∀ e ∈ es ++ limit.edits (Outline.of (bytes base)).codeEnd,
      site.scope ≤ e.position ∧ e.Parted := by
    intro e he
    rcases List.mem_append.1 he with he | he
    · have hmem : e ∈ site.predicateEdits clause
          (clause.render dialect (baseParams.length + 1)).sql ∨ e ∈ site.orderEdits order := by
        rcases hes with ⟨rfl, -⟩ | ⟨rfl, -⟩
        · exact List.mem_append.1 he
        · exact (List.mem_append.1 he).symm
      rcases hmem with he | he
      · exact ⟨scope_le_predicateEdits hsite he, parted_predicateEdits e he⟩
      · exact ⟨scope_le_orderEdits hsite he, parted_orderEdits e he⟩
    · obtain ⟨w, hw, hscope⟩ := exists_scope_word hsite
      have hbounds := Outline.word_bounds hw
      obtain ⟨hle, hsep⟩ := limit.parted_edits _ e he
      exact ⟨by omega, hsep⟩
  -- the count column is the first of the edits, and all that matters here
  have hfront : ((bytes base).take (Outline.of (bytes base)).codeEnd).take site.projection =
      (bytes base).take site.projection := by
    rw [List.take_take, Nat.min_eq_left (projection_le_codeEnd hsite)]
  have hsql : bytes c.sql = (bytes base).take site.projection ++
      (bytes (site.countEdit countAlias).text ++
        Edit.weave ((bytes base).take (Outline.of (bytes base)).codeEnd) site.projection
          (es ++ limit.edits (Outline.of (bytes base)).codeEnd)) := by
    rw [hweave, hsort, List.cons_append, Edit.weave, List.drop_zero]
    exact congrArg (· ++ _) hfront
  obtain ⟨A, select, B, column, C, hcounted, -, hC⟩ := counted_of_locate hsite halias
    (Edit.weave ((bytes base).take (Outline.of (bytes base)).codeEnd) site.projection
      (es ++ limit.edits (Outline.of (bytes base)).codeEnd))
  rw [← hsql] at hcounted
  refine ⟨fun hfrom => ?_, fun params clause' order' limit' => ?_⟩
  · obtain ⟨t, ht, hspells⟩ := from_mem_texts hsite hfrom hparted
    rw [← hC] at ht
    obtain ⟨w, hw, rfl⟩ := List.mem_map.1 ht
    exact hcounted.selectsFrom_of_mem hw hspells
  · rw [compose_alreadyComposed_iff]
    exact hcounted.locate_iff

end

/-- A statement with a quantifier and a column named like a keyword is refused the second time. -/
theorem compose_again_quantified :
    ∃ c, compose .postgres "limit" "SELECT ALL a FROM (SELECT 1 AS a) t" [] ⟨.and, []⟩ ⟨[]⟩
        .unbounded = .ok c ∧
      Identifier.isPlain "limit" = true ∧
      compose .postgres "limit" c.sql [] ⟨.or, []⟩ ⟨[]⟩ (.bounded 5 0) =
        .error .alreadyComposed := by
  have h : compose .postgres "limit" "SELECT ALL a FROM (SELECT 1 AS a) t" [] ⟨.and, []⟩ ⟨[]⟩
      .unbounded = .ok ⟨[.kept "SELECT ALL", .added " count(*) OVER() AS limit,",
        .kept " a FROM (SELECT 1 AS a) t"], [], "limit", 11⟩ := by
    cbv
  have hfrom : (Outline.of (bytes "SELECT ALL a FROM (SELECT 1 AS a) t")).selectsFrom = true := by
    cbv
  obtain ⟨hkeeps, hagain⟩ := compose_again_iff (by decide +kernel) h
  exact ⟨_, h, by decide +kernel, (hagain [] ⟨.or, []⟩ ⟨[]⟩ (.bounded 5 0)).2 (hkeeps hfrom)⟩

/-- A statement that selects from nothing is given a second count column. -/
theorem compose_again_without_from :
    Identifier.isPlain "_zf_count" = true ∧
      ∃ c c', compose .sqlite "_zf_count" "SELECT 1 AS a" [] ⟨.and, []⟩ ⟨[]⟩ .unbounded = .ok c ∧
      c.sql = "SELECT count(*) OVER() AS _zf_count, 1 AS a" ∧
      compose .sqlite "_zf_count" c.sql [] ⟨.and, []⟩ ⟨[]⟩ .unbounded = .ok c' ∧
      c'.sql = "SELECT count(*) OVER() AS _zf_count, count(*) OVER() AS _zf_count, 1 AS a" := by
  have h : compose .sqlite "_zf_count" "SELECT 1 AS a" [] ⟨.and, []⟩ ⟨[]⟩ .unbounded =
      .ok ⟨[.kept "SELECT", .added " count(*) OVER() AS _zf_count,", .kept " 1 AS a"], [],
        "_zf_count", 7⟩ := by
    cbv
  have hsql : String.join (List.map Piece.text [.kept "SELECT",
      .added " count(*) OVER() AS _zf_count,", .kept " 1 AS a"]) =
        "SELECT count(*) OVER() AS _zf_count, 1 AS a" := by
    decide +kernel
  have hagain : compose .sqlite "_zf_count" "SELECT count(*) OVER() AS _zf_count, 1 AS a" []
      ⟨.and, []⟩ ⟨[]⟩ .unbounded =
        .ok ⟨[.kept "SELECT", .added " count(*) OVER() AS _zf_count,",
          .kept " count(*) OVER() AS _zf_count, 1 AS a"], [], "_zf_count", 7⟩ := by
    cbv
  have hsql' : String.join (List.map Piece.text [.kept "SELECT",
      .added " count(*) OVER() AS _zf_count,", .kept " count(*) OVER() AS _zf_count, 1 AS a"]) =
        "SELECT count(*) OVER() AS _zf_count, count(*) OVER() AS _zf_count, 1 AS a" := by
    decide +kernel
  rw [← hsql] at hagain
  exact ⟨by decide +kernel, _, _, h, hsql, hagain, hsql'⟩

end Listing
