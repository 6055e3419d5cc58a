import Listing.Proofs.Numerals
import Listing.Proofs.PageWords
import Mathlib

/-!
# Pages tile the rows

The last page is the least number of pages that has room for all rows, and at least one
(`Pagination.maxPage_le_iff`). What a page info tells follows from that, and every row is on one of
these pages (`Pagination.ofRequest_tiles`).

A client that follows the pages asks for the number behind the page that it has as long as there is
said to be a next one (`Pagination.Walk`). It comes to the last page and has seen every row once
then (`Pagination.hasNext_leads`), unless there are more pages than page numbers: the last number
stands for all further ones, and a client that has come to it follows for ever
(`Pagination.exists_walk_iff`).
-/

namespace Listing

namespace Pagination

variable {config : Config} {page limit : Option String} {p : Pagination} {total m : Nat}

/-! ## Pages of a request -/

/-- A page number within 32 bits, and a size that is allowed. -/
structure InBounds (config : Config) (p : Pagination) : Prop where
  one_le_page : 1 ≤ p.page
  page_le : p.page ≤ maxPageNumber
  one_le_limit : 1 ≤ p.limit
  limit_le : p.limit ≤ config.maxLimit.toNat

theorem inBounds_ofRequest (config : Config) (page limit : Option String) :
    InBounds config (ofRequest config page limit) := by
  have hone := config.sound.one_le_defaultLimit
  have hle := config.sound.defaultLimit_le_maxLimit
  have hmax : 1 ≤ maxPageNumber := by decide
  have hpage : 1 ≤ pageOf page ∧ pageOf page ≤ maxPageNumber := by
    unfold pageOf
    split
    · split <;> omega
    · omega
  have hlimit : 1 ≤ limitOf config limit ∧ limitOf config limit ≤ config.maxLimit.toNat := by
    unfold limitOf
    split <;> omega
  exact ⟨hpage.1, hpage.2, hlimit.1, hlimit.2⟩

/-- A page ends where the next one starts. -/
theorem offset_add_limit (h : 1 ≤ p.page) : p.offset + p.limit = p.limit * p.page := by
  obtain ⟨before, hbefore⟩ := Nat.exists_eq_add_of_le' h
  rw [offset, hbefore, Nat.add_sub_cancel, Nat.mul_succ]

/-- The pages up to a number have room for all rows if the last page is one of them. -/
theorem maxPage_le_iff (h : 1 ≤ p.limit) : p.maxPage total ≤ m ↔ 1 ≤ m ∧ total ≤ m * p.limit := by
  unfold maxPage
  by_cases hzero : total = 0
  · simp [hzero]
  · rw [if_neg hzero, Nat.div_le_iff_le_mul_add_pred (by omega), Nat.mul_comm]
    constructor
    · intro hle
      refine ⟨?_, by omega⟩
      by_contra hm
      have hm : m = 0 := by omega
      subst hm
      omega
    · intro hle
      omega

theorem isLeast_maxPage (h : 1 ≤ p.limit) (total : Nat) :
    IsLeast {m | 1 ≤ m ∧ total ≤ m * p.limit} (p.maxPage total) :=
  ⟨(maxPage_le_iff h).1 (Nat.le_refl _), fun _ hm => (maxPage_le_iff h).2 hm⟩

theorem hasNext_iff (h : InBounds config p) :
    (PageInfo.of p total).hasNext = true ↔ p.offset + p.limit < total := by
  have hpage := h.one_le_page
  have hle : p.maxPage total ≤ p.page ↔ 1 ≤ p.page ∧ total ≤ p.page * p.limit :=
    maxPage_le_iff h.one_le_limit
  rw [offset_add_limit hpage, Nat.mul_comm]
  simp only [PageInfo.of, decide_eq_true_eq]
  omega

theorem hasPrev_iff (h : InBounds config p) :
    (PageInfo.of p total).hasPrev = true ↔ 0 < p.offset := by
  have hpos : 0 < p.offset ↔ 0 < p.page - 1 := Nat.mul_pos_iff_of_pos_left h.one_le_limit
  simp only [PageInfo.of, decide_eq_true_eq]
  omega

/-- A row is on the page that its place, divided by the size, tells. -/
theorem existsUnique_page (h : 1 ≤ p.limit) {r : Nat} (hr : r < total) :
    ∃! k, (1 ≤ k ∧ k ≤ p.maxPage total) ∧ p.limit * (k - 1) ≤ r ∧ r < p.limit * k := by
  have hlow : p.limit * (r / p.limit) ≤ r := Nat.mul_div_le r p.limit
  have hhigh : r < p.limit * (r / p.limit + 1) := Nat.lt_mul_div_succ r h
  refine ⟨r / p.limit + 1, ⟨⟨Nat.succ_pos _, ?_⟩, hlow, hhigh⟩, ?_⟩
  · -- fewer pages would have no room for the row
    by_contra hlt
    have hle : p.maxPage total ≤ r / p.limit := by omega
    have hroom := ((maxPage_le_iff h).1 hle).2
    rw [Nat.mul_comm] at hroom
    omega
  · rintro k ⟨⟨hk, -⟩, hfrom, hto⟩
    obtain ⟨before, rfl⟩ := Nat.exists_eq_add_of_le' hk
    rw [Nat.add_sub_cancel] at hfrom
    have hdiv : r / p.limit = before :=
      Nat.div_eq_of_lt_le (by rwa [Nat.mul_comm]) (by rwa [Nat.mul_comm])
    rw [hdiv]

/-- **Pages tile the rows, and their arithmetic is exact.** Whatever a request gives, its page and
size are in bounds and no step that a machine takes is without result. The last page is the least
number of pages with room for all rows, a next page is told of where rows follow and a previous one
where rows went before, and each row is on one page. -/
theorem ofRequest_tiles (config : Config) (page limit : Option String) (total : UInt64) :
    let p := ofRequest config page limit
    let info := PageInfo.of p total.toNat
    p.InBounds config ∧
    (∃ w, PageWords.ofRequest? config page limit = some w ∧ w.pagination = p ∧
      (∃ o, w.offset? = some o ∧ o.toNat = p.offset) ∧
      ∃ m, w.maxPage? total = some m ∧ m.toNat = info.maxPage) ∧
    IsLeast {m | 1 ≤ m ∧ total.toNat ≤ m * p.limit} info.maxPage ∧
    (info.hasNext = true ↔ p.offset + p.limit < total.toNat) ∧
    (info.hasPrev = true ↔ 0 < p.offset) ∧
    ∀ r < total.toNat,
      ∃! k, (1 ≤ k ∧ k ≤ info.maxPage) ∧ p.limit * (k - 1) ≤ r ∧ r < p.limit * k := by
  intro p info
  have hbounds : p.InBounds config := inBounds_ofRequest config page limit
  obtain ⟨w, hw, heq⟩ := PageWords.ofRequest?_eq config page limit
  have heq : w.pagination = p := heq
  have hpage : 1 ≤ w.page.toNat := by
    have := hbounds.one_le_page
    rwa [← heq] at this
  have hlimit : 1 ≤ w.limit.toNat := by
    have := hbounds.one_le_limit
    rwa [← heq] at this
  refine ⟨hbounds, ⟨w, hw, heq, ?_, ?_⟩, isLeast_maxPage hbounds.one_le_limit _,
    hasNext_iff hbounds, hasPrev_iff hbounds, fun r hr => existsUnique_page hbounds.one_le_limit hr⟩
  · rw [← heq]
    exact PageWords.offset?_eq hpage
  · have hmaxPage := PageWords.maxPage?_eq hlimit total
    rwa [heq] at hmaxPage

/-- The last page number with the greatest size and the greatest total. -/
theorem ofRequest_tiles_greatest :
    ∃ config : Config, let p := ofRequest config (some "99999999999") (some "+4294967296")
      p = ⟨4294967295, 4294967295⟩ ∧ p.offset + p.limit < 2 ^ 64 - 1 ∧
        IsLeast {m | 1 ≤ m ∧ 2 ^ 64 - 1 ≤ m * p.limit} 4294967297 := by
  let config : Config :=
    ⟨{ maxLimit := 4294967295 }, Options.sound_of_fault? (by decide +kernel)⟩
  obtain ⟨-, -, hleast, hnext, -⟩ :=
    ofRequest_tiles config (some "99999999999") (some "+4294967296") 18446744073709551615
  have hp : ofRequest config (some "99999999999") (some "+4294967296") =
      ⟨4294967295, 4294967295⟩ := by
    decide +kernel
  rw [hp] at hleast hnext
  refine ⟨config, hp, ?_, ?_⟩
  · rw [hp]
    exact hnext.1 (by decide +kernel)
  · rw [hp]
    exact hleast

/-! ## Following the pages -/

/-- The rows that a page shows, of all rows in their order. -/
def rowsOf {α : Type} (p : Pagination) (rows : List α) : List α :=
  (rows.drop p.offset).take p.limit

/-- The text that asks for the page behind a page. -/
def following (p : Pagination) : String := toString (p.page + 1)

/-- Some request with a size text gives the page. -/
def Requested (config : Config) (limit : Option String) (p : Pagination) : Prop :=
  ∃ page, ofRequest config page limit = p

theorem Requested.inBounds (h : Requested config limit p) : InBounds config p := by
  obtain ⟨page, rfl⟩ := h
  exact inBounds_ofRequest config page limit

theorem pageOf_toString (hone : 1 ≤ m) (hfits : m < 2 ^ 63) :
    pageOf (some (toString m)) = min m maxPageNumber := by
  have hword : Text.FitsWord m := by
    constructor <;> omega
  have hpage := (ofRequest_of_fitsWord Config.default (Text.writes_toString m) hword).2
  omega

/-- The page behind a page has the next number, except that the last number stays. -/
theorem ofRequest_following (h : Requested config limit p) :
    ofRequest config (some p.following) limit = ⟨min (p.page + 1) maxPageNumber, p.limit⟩ := by
  have hbounds := h.inBounds
  obtain ⟨page, hp⟩ := h
  have hlimit : limitOf config limit = p.limit := by
    rw [← hp]
    rfl
  have hmax : maxPageNumber = 4294967295 := rfl
  have hle := hbounds.page_le
  rw [ofRequest, hlimit, following, pageOf_toString (Nat.succ_pos _) (by omega)]

theorem ofRequest_following_of_lt (h : Requested config limit p) (hlt : p.page < maxPageNumber) :
    ofRequest config (some p.following) limit = ⟨p.page + 1, p.limit⟩ := by
  rw [ofRequest_following h, Nat.min_eq_left hlt]

/-- The pages that a client sees from a page on, if it asks for the page behind as long as there is
said to be a next one, and comes to an end. The size that it asks for and the number of rows stay
the same. -/
inductive Walk (config : Config) (limit : Option String) (total : Nat) :
    Pagination → List Pagination → Prop
  | last {p : Pagination} (h : (PageInfo.of p total).hasNext = false) :
    Walk config limit total p [p]
  | next {p : Pagination} {pages : List Pagination}
    (h : (PageInfo.of p total).hasNext = true)
    (rest : Walk config limit total (ofRequest config (some p.following) limit) pages) :
    Walk config limit total p (p :: pages)

namespace Walk

variable {pages : List Pagination}

/-- A client comes to an end only where every page has a number. -/
theorem maxPage_le (h : Walk config limit total p pages) (hp : Requested config limit p) :
    p.maxPage total ≤ maxPageNumber := by
  induction h with
  | last h =>
    have hle := hp.inBounds.page_le
    have hlast := of_decide_eq_false h
    omega
  | next h rest ih =>
    have hle := ih ⟨_, rfl⟩
    rwa [ofRequest_following hp] at hle

/-- Where a next page is told of, on the way of a client, it has the next number. -/
theorem following_eq (h : Walk config limit total p pages) (hp : Requested config limit p)
    (hnext : (PageInfo.of p total).hasNext = true) :
    ofRequest config (some p.following) limit = ⟨p.page + 1, p.limit⟩ := by
  have hle := h.maxPage_le hp
  have hlt : p.page < p.maxPage total := of_decide_eq_true hnext
  exact ofRequest_following_of_lt hp (by omega)

/-- A client sees all rows from the start of its first page on, each once and in order. -/
theorem flatMap_rowsOf {α : Type} {rows : List α} (h : Walk config limit rows.length p pages)
    (hp : Requested config limit p) : pages.flatMap (·.rowsOf rows) = rows.drop p.offset := by
  induction h with
  | @last p h =>
    have hall : ¬p.offset + p.limit < rows.length := by
      rw [← hasNext_iff hp.inBounds, h]
      decide
    rw [List.flatMap_singleton, rowsOf]
    apply List.take_of_length_le
    rw [List.length_drop]
    omega
  | @next p pages h rest ih =>
    have hfollowing := (Walk.next h rest).following_eq hp h
    have hoffset : (⟨p.page + 1, p.limit⟩ : Pagination).offset = p.offset + p.limit :=
      (offset_add_limit hp.inBounds.one_le_page).symm
    rw [List.flatMap_cons, ih ⟨_, rfl⟩, hfollowing, hoffset, rowsOf, ← List.drop_drop,
      List.take_append_drop]

/-- A client sees the pages up to the last one, by their numbers. -/
theorem map_page (h : Walk config limit total p pages) (hp : Requested config limit p)
    (hle : p.page ≤ p.maxPage total) :
    pages.map (·.page) = List.range' p.page (p.maxPage total + 1 - p.page) := by
  induction h with
  | @last p h =>
    have hlast := of_decide_eq_false h
    have hone : p.maxPage total + 1 - p.page = 1 := by omega
    rw [hone]
    rfl
  | @next p pages h rest ih =>
    have hlt : p.page < p.maxPage total := of_decide_eq_true h
    have hfollowing := (Walk.next h rest).following_eq hp h
    have hrest := ih ⟨_, rfl⟩
    rw [hfollowing] at hrest
    have hmap : pages.map (·.page) =
        List.range' (p.page + 1) (p.maxPage total + 1 - (p.page + 1)) := hrest hlt
    have hmore : p.maxPage total + 1 - p.page = p.maxPage total + 1 - (p.page + 1) + 1 := by omega
    rw [List.map_cons, hmap, hmore, List.range'_succ]

end Walk

/-- A client comes to an end exactly where every page has a number. -/
theorem exists_walk_iff (hp : Requested config limit p) (total : Nat) :
    (∃ pages, Walk config limit total p pages) ↔ p.maxPage total ≤ maxPageNumber := by
  constructor
  · rintro ⟨pages, h⟩
    exact h.maxPage_le hp
  · intro hle
    -- induction on the number of pages that are left
    generalize hleft : p.maxPage total - p.page = left
    induction left generalizing p with
    | zero => exact ⟨_, .last (decide_eq_false (by omega))⟩
    | succ left ih =>
      have hlt : p.page < p.maxPage total := by omega
      have hfollowing := ofRequest_following_of_lt hp (by omega)
      have hleft : (⟨p.page + 1, p.limit⟩ : Pagination).maxPage total - (p.page + 1) = left := by
        change p.maxPage total - (p.page + 1) = left
        omega
      obtain ⟨pages, h⟩ := ih ⟨_, hfollowing⟩ hle hleft
      rw [← hfollowing] at h
      exact ⟨_, .next (decide_eq_true hlt) h⟩

/-- **A next page that is told of is the next page**, if it has a number. A client that starts at
the first page and follows comes to an end exactly if every page has a number; it has seen the pages
up to the last one then, and every row once. -/
theorem hasNext_leads (config : Config) (page limit : Option String) (total : Nat) :
    let p := ofRequest config page limit
    let next := ofRequest config (some (toString (p.page + 1))) limit
    ((PageInfo.of p total).hasNext = true →
      (next.page = p.page + 1 ∧ next.offset = p.offset + p.limit ↔ p.page < maxPageNumber)) ∧
    (p.page = 1 →
      ((∃ pages, Walk config limit total p pages) ↔ p.maxPage total ≤ maxPageNumber) ∧
      ∀ pages, Walk config limit total p pages →
        pages.map (·.page) = List.range' 1 (p.maxPage total) ∧
          pages.flatMap (·.rowsOf (List.range total)) = List.range total) := by
  intro p next
  have hp : Requested config limit p := ⟨page, rfl⟩
  have hnext : next = ⟨min (p.page + 1) maxPageNumber, p.limit⟩ := ofRequest_following hp
  have hbounds := hp.inBounds
  clear_value next p
  subst hnext
  constructor
  · intro _
    constructor
    · rintro ⟨hnumber, -⟩
      have hnumber : min (p.page + 1) maxPageNumber = p.page + 1 := hnumber
      omega
    · intro hlt
      rw [Nat.min_eq_left hlt]
      exact ⟨rfl, (offset_add_limit hbounds.one_le_page).symm⟩
  · intro hfirst
    refine ⟨exists_walk_iff hp total, ?_⟩
    intro pages h
    have hle : p.page ≤ p.maxPage total := by
      rw [hfirst]
      exact ((maxPage_le_iff hbounds.one_le_limit).1 (Nat.le_refl _)).1
    have hmap := h.map_page hp hle
    have hzero : p.offset = 0 := by rw [offset, hfirst, Nat.sub_self, Nat.mul_zero]
    rw [← List.length_range (n := total)] at h
    have hrows := h.flatMap_rowsOf hp
    rw [hfirst, Nat.add_sub_cancel] at hmap
    rw [hzero, List.drop_zero] at hrows
    exact ⟨hmap, hrows⟩

/-- Nine rows on three pages of four. -/
theorem hasNext_leads_three :
    ∃ pages, Walk .default (some "4") 9 (ofRequest .default none (some "4")) pages ∧
      pages.map (·.page) = [1, 2, 3] ∧
      pages.flatMap (·.rowsOf (List.range 9)) = List.range 9 := by
  obtain ⟨hexists, hall⟩ := (hasNext_leads .default none (some "4") 9).2 rfl
  obtain ⟨pages, h⟩ := hexists.2 (by decide +kernel)
  obtain ⟨hmap, hrows⟩ := hall pages h
  exact ⟨pages, h, hmap.trans (by decide +kernel), hrows⟩

/-- With one row more than there are page numbers, a next page is told of on the last of them, and
asking for it gives the same page: a client never comes to an end. -/
theorem hasNext_of_last_number :
    let p := ofRequest .default (some "4294967295") (some "1")
    (PageInfo.of p 4294967296).hasNext = true ∧
      ofRequest .default (some (toString (p.page + 1))) (some "1") = p ∧
      ¬((ofRequest .default (some (toString (p.page + 1))) (some "1")).page = p.page + 1) ∧
      ∀ pages, ¬Walk .default (some "1") 4294967296 (ofRequest .default none (some "1")) pages := by
  intro p
  have hp : p = ⟨4294967295, 1⟩ := by decide +kernel
  have hsame : ofRequest .default (some (toString (p.page + 1))) (some "1") = p := by
    rw [hp]
    exact ofRequest_following ⟨some "4294967295", by decide +kernel⟩
  refine ⟨?_, hsame, ?_, ?_⟩
  · rw [hp]
    decide +kernel
  · rw [hsame, hp]
    decide
  · intro pages h
    have hle := h.maxPage_le ⟨none, rfl⟩
    revert hle
    decide +kernel

end Pagination

end Listing
