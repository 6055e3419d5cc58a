import Listing.Proofs.Clauses
import Listing.Proofs.Sites
import Listing.Proofs.Words
import Mathlib

/-!
# The words of rendered clauses

Which words the texts that are added to a statement have at their top level. All but the first part
of a column stands behind a point (`Identifier.topWords_of_isQualified`), and the conditions of a
predicate stand in parentheses, so that only the connective is left of them
(`WhereClause.mute_render`).
-/

namespace Listing

open Text

/-! ## Texts that start no clause -/

/-- A text that does not start with a letter does not spell a name that does. -/
theorem not_spelled_of_head {t : List UInt8} {name : String}
    (hname : ∃ c ∈ (bytes name).head?, Ascii.isLower (Ascii.toLower c) = true)
    (h : ∀ b ∈ t.head?, Ascii.isUpper b = false ∧ Ascii.isLower b = false) :
    spelled t name = false := by
  obtain ⟨c, hc, hlower⟩ := hname
  refine Bool.eq_false_iff.2 fun hspelled => ?_
  simp only [spelled, sameIgnoringCase, beq_iff_eq] at hspelled
  have hhead := congrArg List.head? hspelled
  rw [List.head?_map, List.head?_map, Option.mem_def.1 hc] at hhead
  obtain ⟨b, hb, hbc⟩ := Option.map_eq_some_iff.1 hhead
  obtain ⟨hupper, hlower'⟩ := h b hb
  rw [← hbc, Ascii.toLower, if_neg (by simp [hupper]), hlower'] at hlower
  cases hlower

/-- Nor is it a word of a keyword. -/
theorem mute_of_head {t : List UInt8}
    (h : ∀ b ∈ t.head?, Ascii.isUpper b = false ∧ Ascii.isLower b = false) : Mute t := by
  have hletter : ∀ k ∈ Keyword.clauses, ∀ a ∈ k.parts, ∃ c ∈ (bytes a).head?,
      Ascii.isLower (Ascii.toLower c) = true := by
    decide +kernel
  exact fun k hk a ha => not_spelled_of_head (hletter k hk a ha) h

theorem head_numeral (n : Nat) :
    ∀ b ∈ (bytes (toString n)).head?, Ascii.isUpper b = false ∧ Ascii.isLower b = false := by
  intro b hb
  have hdigit := isDigit_of_mem_numeral (List.mem_of_head? hb)
  simp only [Ascii.isDigit, Ascii.isUpper, Ascii.isLower, Bool.and_eq_true, Bool.and_eq_false_iff,
    decide_eq_true_eq, decide_eq_false_iff_not, UInt8.le_iff_toNat_le] at hdigit ⊢
  have h57 : (57 : UInt8).toNat = 57 := rfl
  have h65 : (65 : UInt8).toNat = 65 := rfl
  have h97 : (97 : UInt8).toNat = 97 := rfl
  omega

theorem mute_numeral (n : Nat) : Mute (bytes (toString n)) := mute_of_head (head_numeral n)

/-! ## The count column and the limit -/

theorem topWords_count {countAlias : String} (h : Identifier.isPlain countAlias = true) :
    topWords (bytes (" count(*) OVER() AS " ++ countAlias ++ ",")) =
      [bytes "count", bytes "OVER", bytes "AS", bytes countAlias] := by
  have hword := Identifier.isWord_of_isPlain h
  have hfront : ({} : Reader).after (bytes " count(*) OVER() AS ") = {} := by decide +kernel
  have hback : ({} : Reader).after (bytes countAlias) = {} :=
    Reader.after_of_isPlain hword.isPlain
  have hwords : topWords (bytes " count(*) OVER() AS ") =
      [bytes "count", bytes "OVER", bytes "AS"] := by
    cbv
  have hcomma : topWords (bytes ",") = [] := by cbv
  rw [bytes_append, bytes_append, List.append_assoc,
    topWords_append hfront (.of_last (by decide)), topWords_append hback (.of_head (by decide)),
    hwords, hcomma, topWords_of_isWord hword]
  rfl

theorem topWords_limit {limit offset : Nat} :
    topWords (bytes (" " ++ (Limit.bounded limit offset).render)) =
      [bytes "LIMIT", bytes (toString limit), bytes "OFFSET", bytes (toString offset)] := by
  have hlimit := isWord_numeral limit
  have hoffset := isWord_numeral offset
  have hfront : ({} : Reader).after (bytes " LIMIT ") = {} := by decide +kernel
  have hmiddle : ({} : Reader).after (bytes " OFFSET ") = {} := by decide +kernel
  have hwords : topWords (bytes " LIMIT ") = [bytes "LIMIT"] := by cbv
  have hwords' : topWords (bytes " OFFSET ") = [bytes "OFFSET"] := by cbv
  rw [Limit.bytes_bounded, topWords_append hfront (.of_last (by decide)),
    topWords_append (Reader.after_of_isPlain hlimit.isPlain)
      (Seam.append_right (.of_head (by decide)) (by decide)),
    topWords_append hmiddle (.of_last (by decide)), hwords, hwords', topWords_of_isWord hlimit,
    topWords_of_isWord hoffset]
  rfl

/-! ## Columns -/

/-- The lexemes of words joined by points. -/
theorem lexemes_points {part next : String} {rest : List String} (h : IsWord (bytes part)) :
    lexemes (bytes (".".intercalate (part :: next :: rest))) =
      ⟨.word, bytes part⟩ :: ⟨.symbol, bytes "."⟩ ::
        lexemes (bytes (".".intercalate (next :: rest))) := by
  have hpoint : lexemes (bytes ".") = [⟨.symbol, bytes "."⟩] := by cbv
  have hmode : (({} : Reader).after (bytes part)).mode = .code := by
    rw [Reader.after_of_isPlain h.isPlain]
  have hfront : Lexeme.Apart (bytes part)
      (bytes "." ++ bytes (".".intercalate (next :: rest))) := by
    intro a ha b hb
    obtain rfl : Ascii.point = b := Option.some.inj hb
    have hword := h.all a (List.mem_of_getLast? ha)
    refine ⟨fun hboth => absurd hboth.2 (by decide), fun hquote => ?_,
      Bool.and_eq_false_iff.2 (.inr rfl), Bool.and_eq_false_iff.2 (.inr rfl)⟩
    rw [Lexeme.isQuote_of_isWordByte hword] at hquote
    cases hquote.1
  have hback : Lexeme.Apart (bytes ".") (bytes (".".intercalate (next :: rest))) := by
    intro a ha b _
    obtain rfl : Ascii.point = a := Option.some.inj ha
    exact ⟨fun hboth => absurd hboth.1 (by decide), fun hboth => absurd hboth.1 (by decide),
      rfl, rfl⟩
  rw [String.intercalate_cons_cons, bytes_append, bytes_append, List.append_assoc,
    lexemes_append hmode hfront, lexemes_of_isWord h, lexemes_append rfl hback, hpoint]
  rfl

/-- Behind a point no part of a name is a word of its own. -/
theorem words_points {parts : List String} (hne : parts ≠ [])
    (h : ∀ part ∈ parts, IsWord (bytes part)) {s : Scan} (hpoint : s.afterPoint = true) :
    s.words (lexemes (bytes (".".intercalate parts))) = [] := by
  induction parts generalizing s with
  | nil => exact absurd rfl hne
  | cons part rest ih =>
    have hpart := h part List.mem_cons_self
    cases rest with
    | nil =>
      rw [String.intercalate_singleton, lexemes_of_isWord hpart]
      simp [Scan.words, Scan.word?, hpoint]
    | cons next rest =>
      have hnext := ih (List.cons_ne_nil _ _) (fun p hp => h p (List.mem_cons_of_mem part hp))
        (s := (s.pass ⟨.word, bytes part⟩).pass ⟨.symbol, bytes "."⟩) rfl
      rw [lexemes_points hpart, Scan.words, Scan.words, hnext]
      simp [Scan.word?, hpoint]

/-- The first part of a qualified identifier. -/
def Identifier.leading (s : String) : List UInt8 := bytes ((parts s).headD "")

theorem Identifier.leading_mem (s : String) : ∃ part ∈ parts s, leading s = bytes part := by
  obtain ⟨part, rest, hparts⟩ := List.exists_cons_of_ne_nil (parts_ne_nil s)
  exact ⟨part, by rw [hparts]; exact List.mem_cons_self, by rw [leading, hparts]; rfl⟩

/-- A qualified identifier is one word, its first part. -/
theorem Identifier.topWords_of_isQualified {s : String} (h : isQualified s = true) :
    topWords (bytes s) = [leading s] := by
  have hparts : ∀ part ∈ parts s, IsWord (bytes part) := fun part => isWord_of_mem_parts h
  have hs := intercalate_parts s
  rw [leading]
  generalize hlist : parts s = ps at hparts hs
  match ps with
  | [] => exact absurd hlist (parts_ne_nil s)
  | [part] =>
    rw [String.intercalate_singleton] at hs
    rw [← hs]
    exact topWords_of_isWord (hparts part List.mem_cons_self)
  | part :: next :: rest =>
    have hpart := hparts part List.mem_cons_self
    have hrest := words_points (List.cons_ne_nil next rest)
      (fun p hp => hparts p (List.mem_cons_of_mem part hp))
      (s := (({} : Scan).pass ⟨.word, bytes part⟩).pass ⟨.symbol, bytes "."⟩) rfl
    rw [← hs, topWords, Outline.of, lexemes_points hpart]
    simp only [Scan.words, hrest]
    rfl

/-! ## Predicates -/

theorem WhereClause.topWords_renderGroup {group : List Condition} (d : Dialect) (n : Nat)
    (h : ∀ c ∈ group, Identifier.isQualified c.column = true) :
    topWords (bytes (renderGroup d n group).sql) = [] := by
  rw [renderGroup, bytes_parens]
  exact topWords_parens (neutral_alternatives d n h)

theorem Connective.topWords_join (c : Connective) :
    topWords (bytes (" " ++ c.keyword ++ " ")) = [bytes c.keyword] := by
  cases c with
  | and =>
    have hand : topWords (bytes " AND ") = [bytes "AND"] := by cbv
    exact hand
  | or =>
    have hor : topWords (bytes " OR ") = [bytes "OR"] := by cbv
    exact hor

theorem Connective.mute_keyword (c : Connective) : Mute (bytes c.keyword) := by
  cases c <;> decide

/-- Nothing of a predicate but its connective stands at the top level. -/
theorem WhereClause.topWords_render {clause : WhereClause} (d : Dialect) (n : Nat)
    (hne : clause.isEmpty = false)
    (h : ∀ c ∈ clause.columns, Identifier.isQualified c = true) :
    Enclosed (bytes (clause.render d n).sql) ∧
      ∀ t ∈ topWords (bytes (clause.render d n).sql), t = bytes clause.connective.keyword := by
  obtain ⟨hneutral, hfit⟩ := clause.connective.neutral_join
  refine render_induction
    (P := fun u => Enclosed u ∧ ∀ t ∈ topWords u, t = bytes clause.connective.keyword) d n hne
    (fun m group hgroup => ?_) ?_
  · have hcolumns := fun c hc => h c.column (mem_columns (c := c) hgroup hc)
    refine ⟨enclosed_renderGroup d m hcolumns, ?_⟩
    rw [topWords_renderGroup d m hcolumns]
    simp
  · rintro u v ⟨hu, huwords⟩ ⟨hv, hvwords⟩
    refine ⟨hu.join hneutral hfit hv, ?_⟩
    have hlast : ∀ a ∈ (bytes (" " ++ clause.connective.keyword ++ " ")).getLast?,
        isSeparator a = true := by
      cases clause.connective <;> decide
    rw [topWords_append hu.neutral.closed (.of_last (by rw [hu.last]; decide)),
      topWords_append hneutral.closed (.of_last hlast), Connective.topWords_join]
    intro t ht
    rcases List.mem_append.1 ht with ht | ht
    · exact huwords t ht
    rcases List.mem_append.1 ht with ht | ht
    · exact List.mem_singleton.1 ht
    · exact hvwords t ht

theorem WhereClause.mute_render {clause : WhereClause} (d : Dialect) (n : Nat)
    (hne : clause.isEmpty = false)
    (h : ∀ c ∈ clause.columns, Identifier.isQualified c = true) :
    Enclosed (bytes (clause.render d n).sql) ∧
      ∀ t ∈ topWords (bytes (clause.render d n).sql), Mute t := by
  obtain ⟨henclosed, hwords⟩ := clause.topWords_render d n hne h
  refine ⟨henclosed, fun t ht => ?_⟩
  rw [hwords t ht]
  exact clause.connective.mute_keyword

/-- Added in front of others, such a predicate starts no clause. -/
theorem Enclosed.clausesOf_append {u : List UInt8} (h : Enclosed u)
    (hmute : ∀ t ∈ topWords u, Mute t) (v : List UInt8) :
    clausesOf (topWords (u ++ v)) = clausesOf (topWords v) ∧
      (NoBy (topWords v) → NoBy (topWords (u ++ v))) := by
  have hsep : ∀ a ∈ u.getLast?, isSeparator a = true := by
    rw [h.last]
    decide
  rw [topWords_append h.neutral.closed (.of_last hsep)]
  exact ⟨clausesOf_all_mute hmute _, (Mute.noBy hmute).append⟩

/-- Of a predicate in parentheses, with another one behind it, the word between them is left. -/
theorem topWords_wrapped {blanks body : List UInt8} (hblanks : IsPlain blanks)
    (hbody : Reader.Neutral body) (v : List UInt8) :
    topWords (blanks ++ ((Ascii.openParen :: body ++ [Ascii.closeParen]) ++ (bytes " AND " ++ v))) =
      (topWords blanks ++ [bytes "AND"]) ++ topWords v := by
  have hand : topWords (bytes " AND ") = [bytes "AND"] := by cbv
  have hafter : ({} : Reader).after (bytes " AND ") = {} := by decide +kernel
  have hlast : ∀ a ∈ (Ascii.openParen :: body ++ [Ascii.closeParen]).getLast?,
      isSeparator a = true := by
    intro a ha
    rw [List.getLast?_append] at ha
    obtain rfl : Ascii.closeParen = a := Option.some.inj ha
    rfl
  rw [topWords_append (Reader.after_of_isPlain hblanks) (.of_head (by simp [isSeparator])),
    topWords_append hbody.parens.closed (.of_last hlast),
    topWords_append hafter (.of_last (by decide)), topWords_parens hbody, hand, List.nil_append,
    List.append_assoc]

/-- The blanks in front of a predicate are no words of keywords. -/
theorem mute_of_blankRun (bs : List UInt8) : ∀ t ∈ topWords (bs.take (blankRun bs)), Mute t := by
  intro t ht
  obtain ⟨w, hw, rfl⟩ := List.mem_map.1 ht
  have hbytes := Site.forall_blankRun (P := fun b => !Ascii.isUpper b && !Ascii.isLower b)
    (by decide +kernel) bs
  refine mute_of_head fun b hb => ?_
  have hmem := List.mem_of_head? hb
  rw [← (Outline.word_text hw).1] at hmem
  simpa using hbytes b (List.mem_of_mem_take (List.mem_of_mem_drop hmem))

/-! ## Sort columns -/

/-- A column none of whose parts is a keyword of a clause by itself. -/
def Identifier.FreeOfClauses (column : String) : Prop :=
  ∀ part ∈ parts column, ∀ k ∈ Keyword.clauses, k.parts.length = 1 →
    spelled (bytes part) k.opening = false

instance (column : String) : Decidable (Identifier.FreeOfClauses column) :=
  inferInstanceAs (Decidable (∀ part ∈ Identifier.parts column, ∀ k ∈ Keyword.clauses,
    k.parts.length = 1 → spelled (bytes part) k.opening = false))

/-- Such a part starts no clause as long as it is not followed by `BY`. -/
theorem clausesOf_part {p t : List UInt8} {ts : List (List UInt8)}
    (h : ∀ k ∈ Keyword.clauses, k.parts.length = 1 → spelled p k.opening = false)
    (ht : spelled t "by" = false) : clausesOf (p :: t :: ts) = clausesOf (t :: ts) := by
  have hnil : Keyword.clauses.filter (startsWith · (p :: t :: ts)) = [] := by
    refine List.filter_eq_nil_iff.2 fun k hk hstarts => ?_
    have hopening := spelled_opening hstarts
    by_cases hlength : k.parts.length = 1
    · rw [h k hk hlength] at hopening
      cases hopening
    · revert hk hlength hstarts
      cases k <;> simp_all [startsWith, Keyword.parts]
  rw [clausesOf, hnil, List.nil_append]

/-- The words that sort columns end with. -/
def sortEnds : List (List UInt8) := [bytes "ASC", bytes "DESC", bytes "LAST"]

/-- The words that sort columns have behind each column. -/
def sortWords : List (List UInt8) := bytes "NULLS" :: sortEnds

/-- The columns by the words that they are. -/
def OrderBy.leading (order : OrderBy) : List (List UInt8) := order.columns.map Identifier.leading

/-- The text of sort columns: all in front of its last word, and that word. -/
structure SortStretch (u front last : List UInt8) : Prop where
  eq : u = front ++ last
  plain : IsPlain front
  space : front.getLast? = some Ascii.space
  last : last ∈ sortEnds

/-- Such a text if the words in front of the last one start no clause. -/
structure SortText (u front last : List UInt8) : Prop extends SortStretch u front last where
  mute : ∀ t ts, spelled t "by" = false →
    clausesOf (topWords front ++ t :: ts) = clausesOf (t :: ts)

theorem sortEnds_spec {t : List UInt8} (h : t ∈ sortEnds) : IsWord t ∧ Mute t := by
  simp only [sortEnds, List.mem_cons, List.not_mem_nil, or_false] at h
  rcases h with rfl | rfl | rfl
  · exact ⟨⟨by decide, by decide⟩, by decide⟩
  · exact ⟨⟨by decide, by decide⟩, by decide⟩
  · exact ⟨⟨by decide, by decide⟩, by decide⟩

theorem Direction.keyword_mem (d : Direction) : bytes d.keyword ∈ sortEnds := by
  cases d <;> decide

theorem SortStretch.isWord {u front last : List UInt8} (h : SortStretch u front last) :
    IsWord last :=
  (sortEnds_spec h.last).1

theorem SortStretch.isPlain {u front last : List UInt8} (h : SortStretch u front last) :
    IsPlain u := by
  rw [h.eq]
  exact h.plain.append h.isWord.isPlain

/-- Sort columns end with a word in front of which are the columns and what belongs to them. -/
theorem SortField.sortStretch {field : SortField}
    (h : Identifier.isQualified field.column = true) :
    ∃ front last, SortStretch (bytes field.render) front last ∧
      (∀ t ∈ topWords front, t ∈ sortWords ∨ t = Identifier.leading field.column) ∧
      (Identifier.FreeOfClauses field.column → ∀ t ts, spelled t "by" = false →
        clausesOf (topWords front ++ t :: ts) = clausesOf (t :: ts)) := by
  have hcolumn := Identifier.plain_of_isQualified h
  have hspace : topWords (bytes " ") = [] := by cbv
  have hfront : topWords (bytes field.column ++ bytes " ") = [Identifier.leading field.column] := by
    rw [topWords_append (Reader.after_of_isPlain hcolumn) (.of_head (by decide)),
      Identifier.topWords_of_isQualified h, hspace]
    rfl
  have hstart : Identifier.FreeOfClauses field.column → ∀ k ∈ Keyword.clauses,
      k.parts.length = 1 → spelled (Identifier.leading field.column) k.opening = false := by
    intro hfree
    obtain ⟨part, hpart, hleading⟩ := Identifier.leading_mem field.column
    rw [hleading]
    exact hfree part hpart
  have hdirection := sortEnds_spec field.direction.keyword_mem
  have hplain : IsPlain (bytes field.column ++ bytes " ") := hcolumn.append (by decide)
  have hend : (bytes field.column ++ bytes " ").getLast? = some Ascii.space := by
    rw [List.getLast?_append]
    rfl
  cases hnulls : field.nullsLast with
  | false =>
    refine ⟨bytes field.column ++ bytes " ", bytes field.direction.keyword,
      ⟨?_, hplain, hend, field.direction.keyword_mem⟩, fun t ht => ?_, fun hfree t ts ht => ?_⟩
    · simp only [render, hnulls, bytes_append]
      simp
    · rw [hfront] at ht
      exact .inr (List.mem_singleton.1 ht)
    · rw [hfront]
      exact clausesOf_part (hstart hfree) ht
  | true =>
    have hnullsWords : topWords (bytes " NULLS ") = [bytes "NULLS"] := by cbv
    have hnullsMute : Mute (bytes "NULLS") := by decide
    have hwords : topWords ((bytes field.column ++ bytes " ") ++
        (bytes field.direction.keyword ++ bytes " NULLS ")) =
          [Identifier.leading field.column, bytes field.direction.keyword, bytes "NULLS"] := by
      rw [topWords_append (Reader.after_of_isPlain hplain)
          (.of_last (by rw [hend]; decide)),
        topWords_append (Reader.after_of_isPlain hdirection.1.isPlain) (.of_head (by decide)),
        hfront, topWords_of_isWord hdirection.1, hnullsWords]
      rfl
    refine ⟨(bytes field.column ++ bytes " ") ++ (bytes field.direction.keyword ++ bytes " NULLS "),
      bytes "LAST", ⟨?_, hplain.append (IsPlain.append hdirection.1.isPlain (by decide)), ?_,
        by decide⟩, fun t ht => ?_, fun hfree t ts ht => ?_⟩
    · have hlast : bytes " NULLS LAST" = bytes " NULLS " ++ bytes "LAST" := rfl
      simp only [render, hnulls, ↓reduceIte, bytes_append, hlast, List.append_assoc]
    · rw [List.getLast?_append, List.getLast?_append]
      rfl
    · rw [hwords] at ht
      simp only [List.mem_cons, List.not_mem_nil, or_false] at ht
      rcases ht with rfl | rfl | rfl
      · exact .inr rfl
      · exact .inl (List.mem_cons_of_mem _ field.direction.keyword_mem)
      · exact .inl List.mem_cons_self
    · rw [hwords]
      simp only [List.cons_append, List.nil_append]
      rw [clausesOf_part (hstart hfree) hdirection.2.not_by, clausesOf_mute hdirection.2,
        clausesOf_mute hnullsMute]

/-- The words of sort columns in a row. -/
theorem SortStretch.join {u v front last front' last' : List UInt8}
    (hu : SortStretch u front last) (hv : SortStretch v front' last') :
    SortStretch (u ++ (bytes ", " ++ v)) ((u ++ bytes ", ") ++ front') last' ∧
      topWords ((u ++ bytes ", ") ++ front') = topWords front ++ last :: topWords front' := by
  have hcomma : topWords (bytes ", ") = [] := by cbv
  have hplain : IsPlain (u ++ bytes ", ") := hu.isPlain.append (by decide)
  have hend : (u ++ bytes ", ").getLast? = some Ascii.space := by
    rw [List.getLast?_append]
    rfl
  have hsep : ∀ a ∈ front.getLast?, isSeparator a = true := by
    rw [hu.space]
    decide
  refine ⟨⟨?_, hplain.append hv.plain, ?_, hv.last⟩, ?_⟩
  · rw [hv.eq]
    simp
  · rw [List.getLast?_append, hv.space]
    rfl
  · rw [topWords_append (Reader.after_of_isPlain hplain)
        (.of_last (by rw [hend]; decide)),
      topWords_append (Reader.after_of_isPlain hu.isPlain) (.of_head (by decide)), hcomma]
    conv => lhs; rw [hu.eq]
    rw [topWords_append (Reader.after_of_isPlain hu.plain) (.of_last hsep),
      topWords_of_isWord hu.isWord]
    simp

theorem OrderBy.sortStretch {order : OrderBy} (hne : order.isEmpty = false)
    (h : ∀ c ∈ order.columns, Identifier.isQualified c = true) :
    ∃ front last, SortStretch (bytes order.render) front last ∧
      (∀ t ∈ topWords front, t ∈ sortWords ∨ t ∈ order.leading) ∧
      ((∀ c ∈ order.columns, Identifier.FreeOfClauses c) → ∀ t ts, spelled t "by" = false →
        clausesOf (topWords front ++ t :: ts) = clausesOf (t :: ts)) := by
  have hfields : order.fields.map SortField.render ≠ [] := by
    intro hnil
    rw [List.map_eq_nil_iff] at hnil
    rw [isEmpty, hnil] at hne
    cases hne
  rw [render]
  refine intercalate_induction (P := fun u => ∃ front last, SortStretch u front last ∧
    (∀ t ∈ topWords front, t ∈ sortWords ∨ t ∈ order.leading) ∧
    ((∀ c ∈ order.columns, Identifier.FreeOfClauses c) → ∀ t ts, spelled t "by" = false →
      clausesOf (topWords front ++ t :: ts) = clausesOf (t :: ts))) hfields (fun s hs => ?_) ?_
  · obtain ⟨field, hfield, rfl⟩ := List.mem_map.1 hs
    have hmem : field.column ∈ order.columns := List.mem_map_of_mem hfield
    obtain ⟨front, last, hstretch, hwords, hmute⟩ := SortField.sortStretch (h _ hmem)
    refine ⟨front, last, hstretch, fun t ht => ?_, fun hfree => hmute (hfree _ hmem)⟩
    rcases hwords t ht with hfixed | rfl
    · exact .inl hfixed
    · exact .inr (List.mem_map_of_mem hmem)
  · rintro u v ⟨front, last, hu, huwords, humute⟩ ⟨front', last', hv, hvwords, hvmute⟩
    obtain ⟨hstretch, hwords⟩ := hu.join hv
    have hlast := (sortEnds_spec hu.last).2
    refine ⟨_, _, hstretch, fun t ht => ?_, fun hfree t ts ht => ?_⟩
    · rw [hwords] at ht
      rcases List.mem_append.1 ht with ht | ht
      · exact huwords t ht
      rcases List.mem_cons.1 ht with rfl | ht
      · exact .inl (List.mem_cons_of_mem _ hu.last)
      · exact hvwords t ht
    · rw [hwords, List.append_assoc, List.cons_append, humute hfree _ _ hlast.not_by,
        clausesOf_mute hlast, hvmute hfree t ts ht]

theorem OrderBy.sortText {order : OrderBy} (hne : order.isEmpty = false)
    (h : ∀ c ∈ order.columns, Identifier.isQualified c = true)
    (hfree : ∀ c ∈ order.columns, Identifier.FreeOfClauses c) :
    ∃ front last, SortText (bytes order.render) front last := by
  obtain ⟨front, last, hstretch, -, hmute⟩ := sortStretch hne h
  exact ⟨front, last, hstretch, hmute hfree⟩

end Listing
