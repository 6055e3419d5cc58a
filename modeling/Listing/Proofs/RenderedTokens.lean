import Listing.Proofs.ConditionReading

/-!
# The tokens of rendered clauses

What is rendered is told as readings: a condition is rendered as the tokens of its reading
(`Condition.codeTokens_render`), and so is a clause, group by group
(`WhereClause.codeTokens_render`). Each condition is numbered from where the one before left off.
`Fragment.starts` lists these numbers: those of a sequence are consecutive (`Fragment.range_starts`)
and tell where the values of each fragment stand among all values (`Fragment.mem_starts`).
-/

namespace Listing

open Text

/-! ## The numbers of a sequence -/

namespace Fragment

variable {α : Type} {render : Nat → α → Fragment} {start : Nat} {as : List α}

/-- Things in a row, each with the number that it is rendered from. -/
def starts (render : Nat → α → Fragment) (start : Nat) : List α → List (Nat × α)
  | [] => []
  | a :: as => (start, a) :: starts render (start + (render start a).params.length) as

theorem sequence_eq_map (render : Nat → α → Fragment) (start : Nat) (as : List α) :
    sequence render start as = (starts render start as).map fun p => render p.1 p.2 := by
  induction as generalizing start with
  | nil => rfl
  | cons a as ih => rw [sequence, starts, List.map_cons, ih]

theorem starts_snd (render : Nat → α → Fragment) (start : Nat) (as : List α) :
    (starts render start as).map Prod.snd = as := by
  induction as generalizing start with
  | nil => rfl
  | cons a as ih => rw [starts, List.map_cons, ih]

theorem mem_of_mem_starts {p : Nat × α} (h : p ∈ starts render start as) : p.2 ∈ as := by
  rw [← starts_snd render start as]
  exact List.mem_map_of_mem h

end Fragment

/-! ## Columns -/

namespace Identifier

theorem head_of_isStart {c : Char} (h : isStart c = true) :
    (String.utf8EncodeChar c).head? ≠ some Ascii.dollar := by
  have hall : ∀ n < 128, isStart (Char.ofNat n) = true →
      (String.utf8EncodeChar (Char.ofNat n)).head? ≠ some Ascii.dollar := by
    decide +kernel
  have hchar := hall c.toNat (toNat_lt_of_isRest (isRest_of_isStart h))
  rw [Char.ofNat_toNat] at hchar
  exact hchar h

/-- A plain identifier is no placeholder. -/
theorem head_of_isPart {cs : List Char} (h : isPart cs = true) :
    (bytes (String.ofList cs)).head? ≠ some Ascii.dollar := by
  cases cs with
  | nil => cases h
  | cons c cs =>
    simp only [isPart, Bool.and_eq_true] at h
    have hne : String.utf8EncodeChar c ≠ [] := by
      rw [← List.length_pos_iff, String.length_utf8EncodeChar]
      exact c.utf8Size_pos
    rw [bytes_eq_flatMap, String.toList_ofList, List.flatMap_cons,
      List.head?_append_of_ne_nil _ hne]
    exact head_of_isStart h.1.2

theorem head_of_mem_parts {s part : String} (h : isQualified s = true) (hpart : part ∈ parts s) :
    (bytes part).head? ≠ some Ascii.dollar := by
  simp only [isQualified, Bool.and_eq_true, List.all_eq_true] at h
  obtain ⟨cs, hcs, rfl⟩ := List.mem_map.1 hpart
  exact head_of_isPart (h.2 cs hcs)

theorem codeTokens_points {d : Dialect} {ps : List String} (hne : ps ≠ [])
    (h : ∀ part ∈ ps, IsWord (bytes part) ∧ (bytes part).head? ≠ some Ascii.dollar) :
    codeTokens d (bytes (".".intercalate ps)) = Reading.columnTokens (ps.map bytes) := by
  induction ps with
  | nil => exact absurd rfl hne
  | cons part ps ih =>
    obtain ⟨hword, hdollar⟩ := h part List.mem_cons_self
    cases ps with
    | nil =>
      rw [String.intercalate_singleton, codeTokens_of_isWord hword hdollar]
      rfl
    | cons next ps =>
      have hrest := ih (List.cons_ne_nil _ _) fun p hp => h p (List.mem_cons_of_mem part hp)
      have hmark : bytes part ≠ bytes "?" := by
        intro heq
        have hmem := hword.all 63 (heq ▸ List.mem_singleton.2 rfl)
        exact absurd hmem (by decide)
      have hone := codeTokens_of_isWord (d := d) hword hdollar
      rw [codeTokens, lexemes_of_isWord hword] at hone
      rw [codeTokens] at hrest ⊢
      rw [lexemes_points hword, Dialect.codeAmong_cons hmark,
        Dialect.codeAmong_cons (x := ⟨.symbol, bytes "."⟩) (by decide), hrest]
      simp only [Dialect.codeAmong] at hone
      rw [hone]
      simp [Reading.columnTokens, List.intercalate_cons_cons, Dialect.codeToken?]

/-- The tokens of a column are its parts with points between them. -/
theorem codeTokens_of_isQualified {d : Dialect} {s : String} (h : isQualified s = true) :
    codeTokens d (bytes s) = Reading.columnTokens ((parts s).map bytes) := by
  have hparts := codeTokens_points (d := d) (parts_ne_nil s) fun part hpart =>
    ⟨isWord_of_mem_parts h hpart, head_of_mem_parts h hpart⟩
  rwa [intercalate_parts] at hparts

end Identifier

/-! ## Conditions -/

/-- What is read of a condition whose placeholders are numbered from `n` on. -/
def Condition.reading (d : Dialect) (n : Nat) (c : Condition) : Reading :=
  if c.comparison = .between then
    if c.value.bounds? = some 2 then
      .holds ((Identifier.parts c.column).map bytes) (.within n (n + 1))
    else .never
  else
    .holds ((Identifier.parts c.column).map bytes)
      (if c.comparison.isPattern then .fits (d.matcher c.caseSensitive) n
      else .compares c.comparison n)

variable {d : Dialect}

theorem Condition.isSound_reading (n : Nat) (c : Condition) : (c.reading d n).IsSound := by
  have hparts : (Identifier.parts c.column).map bytes ≠ [] := by
    simp [Identifier.parts_ne_nil]
  unfold reading
  split
  · split
    · exact ⟨hparts, fun _ _ heq => by cases heq⟩
    · trivial
  · rename_i hbetween
    refine ⟨hparts, fun comparison m heq => ?_⟩
    split at heq
    · cases heq
    · rename_i hpattern
      cases heq
      revert hbetween hpattern
      cases c.comparison <;> decide

theorem Matcher.codeTokens_condition (m : Matcher) (n : Nat) {column : String}
    (h : Identifier.isQualified column = true) :
    codeTokens d (bytes (m.condition column (d.placeholder n))) =
      codeTokens d (bytes column) ++ (Operation.fits m n).tokens := by
  have hcolumn : EndsInCode (bytes column) := .of_plain (Identifier.plain_of_isQualified h)
  have hplaceholder : codeTokens d (bytes (d.placeholder n)) = [.placeholder n] :=
    codeTokens_placeholder n
  have hsuffix : codeTokens d (bytes (d.placeholder n) ++ bytes " ESCAPE '\\'") =
      .placeholder n :: Matcher.like.suffix := by
    have hescape : codeTokens d (bytes " ESCAPE '\\'") = Matcher.like.suffix := by
      cases d <;> cbv
    rw [codeTokens_append (EndsInCode.placeholder d n) (.of_head (by decide)), hplaceholder,
      hescape]
    rfl
  cases m with
  | like =>
    have hword : codeTokens d (bytes " LIKE ") = [.word (bytes "LIKE")] := by
      cases d <;> cbv
    simp only [condition, bytes_append, List.append_assoc]
    rw [codeTokens_join hcolumn (by decide), hword, hsuffix]
    rfl
  | ilike =>
    have hword : codeTokens d (bytes " ILIKE ") = [.word (bytes "ILIKE")] := by
      cases d <;> cbv
    simp only [condition, bytes_append, List.append_assoc]
    rw [codeTokens_join hcolumn (by decide), hword, hsuffix]
    rfl
  | glob =>
    have hword : codeTokens d (bytes " GLOB ") = [.word (bytes "GLOB")] := by
      cases d <;> cbv
    simp only [condition, bytes_append, List.append_assoc]
    rw [codeTokens_join hcolumn (by decide), hword, hplaceholder]
    rfl

theorem Lexeme.splitBlock_of_ne {u : List UInt8} (h : ∀ b ∈ u, b ≠ Ascii.asterisk) :
    splitBlock (u ++ bytes "*/") = (u ++ bytes "*/", []) := by
  induction u with
  | nil => rfl
  | cons b u ih =>
    have hb := h b List.mem_cons_self
    have hrest := ih fun a ha => h a (List.mem_cons_of_mem b ha)
    obtain ⟨c, r, hcr⟩ : ∃ c r, u ++ bytes "*/" = c :: r := by
      cases u with
      | nil => exact ⟨_, _, rfl⟩
      | cons c u => exact ⟨_, _, rfl⟩
    rw [List.cons_append, hcr, splitBlock, if_neg fun hboth => hb hboth.1, ← hcr, hrest]

/-- A block comment has no tokens. -/
theorem codeTokens_block {u : List UInt8} (h : ∀ b ∈ u, b ≠ Ascii.asterisk) :
    codeTokens d (bytes "/*" ++ (u ++ bytes "*/")) = [] := by
  have hbegins : Lexeme.Begins Ascii.slash (Ascii.asterisk :: (u ++ bytes "*/"))
      ⟨.comment, Ascii.slash :: Ascii.asterisk :: (u ++ bytes "*/")⟩ [] := by
    have hblock := Lexeme.Begins.block (r := u ++ bytes "*/")
    rwa [Lexeme.splitBlock_of_ne h] at hblock
  have hbytes : bytes "/*" ++ (u ++ bytes "*/") =
      Ascii.slash :: Ascii.asterisk :: (u ++ bytes "*/") := rfl
  rw [codeTokens, hbytes, lexemes_cons, hbegins.first_eq, lexemes_nil]
  rfl

/-- A condition that no row meets is read without its comment. -/
theorem Condition.codeTokens_impossible (bounds : Nat) :
    codeTokens d (bytes (impossible bounds)) = Reading.neverTokens := by
  have hne : ∀ b ∈ bytes " BETWEEN requires 2 values, got " ++ (bytes (toString bounds) ++
      bytes " "), b ≠ Ascii.asterisk := by
    intro b hb
    simp only [List.mem_append] at hb
    rcases hb with hb | hb | hb
    · revert b
      decide
    · exact Lexeme.ne_of_isWordByte ((isWord_numeral bounds).all b hb) (by decide)
    · revert b
      decide
  have hbytes : bytes (impossible bounds) = bytes "1=0 " ++ (bytes "/*" ++
      ((bytes " BETWEEN requires 2 values, got " ++ (bytes (toString bounds) ++ bytes " ")) ++
        bytes "*/")) := by
    have hend := bytes_append ("1=0 /* BETWEEN requires 2 values, got " ++ toString bounds) " */"
    have hfront := bytes_append "1=0 /* BETWEEN requires 2 values, got " (toString bounds)
    have hopen : bytes "1=0 /* BETWEEN requires 2 values, got " =
        bytes "1=0 " ++ (bytes "/*" ++ bytes " BETWEEN requires 2 values, got ") := by
      decide +kernel
    have hclose : bytes " */" = bytes " " ++ bytes "*/" := by decide
    rw [hfront, hopen, hclose] at hend
    simp only [List.append_assoc] at hend ⊢
    exact hend
  have hfront : codeTokens d (bytes "1=0 ") = Reading.neverTokens := by
    cases d <;> cbv
  rw [hbytes, codeTokens_append (by decide) (.of_last (by decide)), codeTokens_block hne, hfront,
    List.append_nil]

theorem Condition.codeTokens_render (n : Nat) {c : Condition}
    (h : Identifier.isQualified c.column = true) :
    codeTokens d (bytes (c.render d n).sql) = (c.reading d n).tokens := by
  have hcolumn : EndsInCode (bytes c.column) := .of_plain (Identifier.plain_of_isQualified h)
  have hparts := Identifier.codeTokens_of_isQualified (d := d) h
  have hplaceholder (m : Nat) : codeTokens d (bytes (d.placeholder m)) = [.placeholder m] :=
    codeTokens_placeholder m
  unfold reading
  split
  · rename_i hbetween
    obtain ⟨column, comparison, value, caseSensitive⟩ := c
    obtain rfl : comparison = .between := hbetween
    rw [(render_between d n column value caseSensitive).1]
    split
    · have hword : codeTokens d (bytes " BETWEEN ") = [.word (bytes "BETWEEN")] := by
        cases d <;> cbv
      have hand : codeTokens d (bytes " AND ") = [.word (bytes "AND")] := by
        cases d <;> cbv
      simp only [bytes_append, List.append_assoc]
      rw [codeTokens_join hcolumn (by decide), codeTokens_join (.placeholder d n) (by decide),
        hword, hand, hplaceholder, hplaceholder, hparts]
      rfl
    · exact codeTokens_impossible _
  · rename_i hbetween
    rw [(render_single d n hbetween).1]
    split
    · rw [Matcher.codeTokens_condition _ n h, hparts]
      rfl
    · rename_i hpattern
      have hsign : codeTokens d (bytes " " ++ (bytes c.comparison.sign ++ bytes " ")) =
          (bytes c.comparison.sign).map fun b => CodeToken.sign [b] := by
        cases d <;> cases c.comparison <;> cbv
      have hspacer : Spacer (bytes " " ++ (bytes c.comparison.sign ++ bytes " ")) := by
        cases c.comparison <;> decide
      have hbytes : bytes (c.column ++ " " ++ c.comparison.sign ++ " " ++ d.placeholder n) =
          bytes c.column ++ ((bytes " " ++ (bytes c.comparison.sign ++ bytes " ")) ++
            bytes (d.placeholder n)) := by
        simp only [bytes_append, List.append_assoc]
      rw [hbytes, codeTokens_join hcolumn hspacer, hsign, hplaceholder, hparts]
      rfl

/-! ## Clauses -/

namespace WhereClause

/-- What is read of a group whose placeholders are numbered from `n` on. -/
def groupReading (d : Dialect) (n : Nat) (group : List Condition) : List Reading :=
  (Fragment.starts (Condition.render d) n group).map fun p => p.2.reading d p.1

/-- What is read of a clause whose placeholders are numbered from `n` on. -/
def readings (d : Dialect) (n : Nat) (clause : WhereClause) : List (List Reading) :=
  (Fragment.starts (renderGroup d) n clause.groups).map fun p => groupReading d p.1 p.2

theorem codeTokens_renderGroup (n : Nat) {group : List Condition}
    (h : ∀ c ∈ group, Identifier.isQualified c.column = true) :
    codeTokens d (bytes (renderGroup d n group).sql) =
      Reading.groupTokens (groupReading d n group) := by
  have hor : codeTokens d (bytes " OR ") = [.word (bytes "OR")] := by
    cases d <;> cbv
  have hclosed : ∀ t ∈ (Fragment.sequence (Condition.render d) n group).map (·.sql),
      EndsInCode (bytes t) := by
    intro t ht
    obtain ⟨f, hf, rfl⟩ := List.mem_map.1 ht
    obtain ⟨m, c, hc, rfl⟩ := Fragment.mem_sequence hf
    exact .of_neutral (c.neutral_render d m (h c hc))
  have htokens : ((Fragment.sequence (Condition.render d) n group).map (·.sql)).map
      (fun t => codeTokens d (bytes t)) = (groupReading d n group).map Reading.tokens := by
    rw [groupReading, Fragment.sequence_eq_map, List.map_map, List.map_map, List.map_map]
    refine List.map_congr_left fun p hp => ?_
    exact Condition.codeTokens_render p.1 (h p.2 (Fragment.mem_of_mem_starts hp))
  rw [renderGroup, bytes_parens, codeTokens_parens (.of_neutral (neutral_alternatives d n h)),
    Fragment.join, codeTokens_intercalate (by decide) hclosed, hor, htokens, Reading.groupTokens]

/-- A clause is rendered as the tokens of its readings. -/
theorem codeTokens_render (n : Nat) {clause : WhereClause}
    (h : ∀ column ∈ clause.columns, Identifier.isQualified column = true) :
    codeTokens d (bytes (clause.render d n).sql) =
      Reading.clauseTokens clause.connective (clause.readings d n) := by
  have hgroup : ∀ group ∈ clause.groups, ∀ c ∈ group, Identifier.isQualified c.column = true :=
    fun group hgroup c hc => h c.column (mem_columns hgroup hc)
  have hword : codeTokens d (bytes (" " ++ clause.connective.keyword ++ " ")) =
      [.word (bytes clause.connective.keyword)] := by
    cases d <;> cases clause.connective <;> cbv
  have hspacer : Spacer (bytes (" " ++ clause.connective.keyword ++ " ")) := by
    cases clause.connective <;> decide
  have hclosed : ∀ t ∈ (Fragment.sequence (renderGroup d) n clause.groups).map (·.sql),
      EndsInCode (bytes t) := by
    intro t ht
    obtain ⟨f, hf, rfl⟩ := List.mem_map.1 ht
    obtain ⟨m, group, hmem, rfl⟩ := Fragment.mem_sequence hf
    exact .of_neutral (enclosed_renderGroup d m (hgroup group hmem)).neutral
  have htokens : ((Fragment.sequence (renderGroup d) n clause.groups).map (·.sql)).map
      (fun t => codeTokens d (bytes t)) = (clause.readings d n).map Reading.groupTokens := by
    rw [readings, Fragment.sequence_eq_map, List.map_map, List.map_map, List.map_map]
    refine List.map_congr_left fun p hp => ?_
    exact codeTokens_renderGroup p.1 (hgroup p.2 (Fragment.mem_of_mem_starts hp))
  rw [render, Fragment.join, codeTokens_intercalate hspacer hclosed, hword, htokens,
    Reading.clauseTokens]

end WhereClause

end Listing
